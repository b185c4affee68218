import Trampoline.Proofs.Need.Expressions

/-!
# Steps of expressions

Each kind of task is followed by the query that it belongs to, if the tasks and queries that these
lead to follow each other.
-/

namespace Trampoline.ByName

open Exec

variable {dressed : Bool} {globals : List (String × Val)} {blocked : Entry -> Prop}
  {reading more : Reading} {m m' : Machine} {path : Path} {frame : Frame} {scope : Scope}
  {perform : (task : Task) -> Run task.Answer} {refer : (query : Query) -> Option query.Answer}

variable {e other : Expr} {value last : Value} {val : Val} {answer : Option Val}
  {spared : Path -> Prop} {mark : Mark} {name : String} {callee : Callable} {es others : List Expr}
  {policy : Policy} {byName : Bool}

theorem NoneBinds.cons {rest : List Expr} (none : NoneBinds (e :: rest)) :
    e.isBind = false ∧ NoneBinds rest :=
  List.forall_mem_cons.mp none

/-! ## The same expression once more -/

/-- A value is known to be no promise. -/
theorem Setting.forced (setting : Setting dressed globals perform refer)
    (means : Means dressed reading value val) {α β : Type}
    {next : Value -> Run α} {answer : Option β} {post : α -> β -> Machine -> Prop}
    (after : Follows dressed m (next value) answer post) :
    Follows dressed m (perform (.force value) >>= next) answer post :=
  setting.known (full_force means.ne_promise) after

/-- Forcing the value of an expression adds nothing to it. -/
theorem Setting.evalForced_follows (setting : Setting dressed globals perform refer)
    (follows : Follows dressed m (perform (.eval e frame)) answer
      (Gives dressed globals spared reading m (Valued dressed frame))) :
    Follows dressed m ((Task.evalForced e frame).plan.run perform) answer
      (Gives dressed globals spared reading m (Valued dressed frame)) := by
  rw [← bind_pure answer]
  refine follows.bind ?_
  rintro ⟨value, frame⟩ val m' ⟨more, moves, agrees, means, rfl⟩
  exact setting.forced means (.pure ⟨more, moves, agrees, means, rfl⟩)

/-- What a promise delays is an expression in the scope of a lazy body. -/
theorem runThunk_follows {env : Env}
    (follows : Follows dressed m (perform (.eval e ⟨env, true, none⟩)) answer
      (Gives dressed globals spared reading m (Valued dressed ⟨env, true, none⟩))) :
    Follows dressed m ((Task.runThunk (.expr e env)).plan.run perform) answer
      (Gives dressed globals spared reading m (Means dressed)) := by
  refine follows.mapRun ?_
  rintro ⟨value, frame⟩ val m' ⟨more, moves, agrees, means, -⟩
  exact ⟨more, moves, agrees, means⟩

/-! ## Names -/

/-- A variable is evaluated as its entry is needed by name. -/
theorem Simulates.var_step (sim : Simulates dressed globals blocked perform refer)
    (setting : Setting dressed globals perform refer)
    (opens : Opens dressed globals blocked reading m path)
    (plain : ∀ op : Native, op.isPure = false -> name ≠ op.name)
    (frames : Frames reading frame scope) :
    Follows dressed m ((Task.eval (.var mark name) frame).plan.run perform)
      (((Query.eval (.var mark name) scope path).course globals).run refer)
      (Gives dressed globals (Apart path) reading m (Valued dressed frame)) := by
  show Follows _ _ _ ((scope.entry name >>= fun entry => Course.sub (.need entry)).run refer) _
  rw [Course.run_bind]
  refine (setting.lookup_follows opens.agrees frames plain).bind ?_
  rintro value entry _ ⟨rfl, holds, settled⟩
  show Follows _ _ ((if frame.isLazy = true then _ else _ : Plan _).run perform) _ _
  rw [frames.isLazy]
  cases inLazy : scope.isLazy with
  | true =>
    rw [if_pos rfl]
    refine (sim.force opens.toRests holds).bind ?_
    rintro value val m' ⟨more, moves, agrees, means⟩
    exact .pure ⟨more, moves.weaken fun _ _ => trivial, agrees, means, rfl⟩
  | false =>
    rw [if_neg nofun, Course.run_sub]
    cases holds with
    | value means evaluates =>
      exact setting.evaluated evaluates rfl (.same opens.agrees ⟨means, rfl⟩)
    | promise => cases settled inLazy

/-! ## Calls -/

/-- Only lazy functions that have their wrapper take promises. -/
theorem Means.isLazy (means : Means dressed reading (.func callee) val) :
    callee.isLazy = (dressed && val.takesThunks) := by
  cases means with
  | native | identity => simp [Callable.isLazy, Val.takesThunks]
  | closure dresses =>
    rw [dresses, dress, Val.takesThunks]
    split
    · next takes => exact takes.symm
    · next strict => exact (Bool.eq_false_iff.mpr strict).symm

/-- What is no function on the machine is none by name. -/
theorem Means.callable (means : Means dressed reading value val) :
    (∃ callee, value = .func callee) ∨ (∃ error, (value.callable : Run Callable) = fail error) ∧
      ∀ globals args kwargs path, (Query.apply val args kwargs path).course globals = .stuck := by
  cases means with
  | native | identity | closure => exact .inl ⟨_, rfl⟩
  | _ => exact .inr ⟨⟨_, rfl⟩, fun _ _ _ _ => rfl⟩

/-- A callee decides how its arguments are passed. -/
theorem Means.chooses (means : Means dressed reading (.func callee) val)
    (frames : Frames more frame scope) :
    Chooses dressed scope.isLazy
      (if (frame.isLazy && callee.isLazy) = true then .delay else .strict)
      (scope.isLazy && val.takesThunks) := by
  rw [frames.isLazy, means.isLazy]
  cases scope.isLazy <;> cases dressed <;> cases val.takesThunks <;> constructor <;> simp

/-- Calls follow each other. -/
theorem Simulates.call_step (sim : Simulates dressed globals blocked perform refer)
    (setting : Setting dressed globals perform refer)
    (opens : Opens dressed globals blocked reading m path) {func func' : Expr}
    {args args' : List Expr} {kwargs kwargs' : List (String × Expr)}
    (suits : (Expr.call mark func args kwargs).All (Suits scope.isLazy))
    (funcs : Mapping (Wears dressed) func func') (values : MappingAll (Wears dressed) args args')
    (named : MappingNamed (Wears dressed) kwargs kwargs') (frames : Frames reading frame scope) :
    Follows dressed m ((Task.eval (.call mark func' args' kwargs') frame).plan.run perform)
      (((Query.eval (.call mark func args kwargs) scope path).course globals).run refer)
      (Gives dressed globals (Apart path) reading m (Valued dressed frame)) := by
  obtain ⟨self, ofFunc, ofArgs, ofKwargs⟩ := Expr.all_call.mp suits
  have plain := self.isPure
  have none : NoneBinds (func :: (args ++ kwargs.map Prod.snd)) := plain
  obtain ⟨noFunc, none⟩ := none.cons
  obtain ⟨noArgs, noKwargs⟩ := List.forall_mem_append.mp none
  refine opens.stage.bind (sim.evalForced opens.stage.opens funcs ofFunc noFunc frames) ?_
  rintro ⟨value, frame⟩ val more m' grows stage ⟨means, rfl⟩
  replace frames := frames.grow grows
  rcases means.callable with ⟨callee, rfl⟩ | ⟨⟨error, fails⟩, stuck⟩
  · refine .step rfl ?_
    have chooses := means.chooses frames
    refine stage.bind (sim.operands stage.opens values ofArgs noArgs frames chooses) ?_
    rintro ⟨args, frame⟩ entries more' m'' grows' stage ⟨hold, rfl, passed⟩
    replace frames := frames.grow grows'
    refine stage.bind (sim.keywords stage.opens named ofKwargs noKwargs frames chooses) ?_
    rintro ⟨kwargs, frame⟩ names more'' m''' grows'' stage ⟨hold', rfl, passed'⟩
    have strict : val.takesThunks = false -> (∀ entry ∈ entries, ∃ val, entry = .value val) ∧
        ∀ bound ∈ names, ∃ val, bound.2 = .value val := by
      intro strict
      have byValue : (scope.isLazy && val.takesThunks) = false := by rw [strict, Bool.and_false]
      exact ⟨passed byValue, passed' byValue⟩
    show Follows _ _ _ ((Course.sub (.apply val entries names (3 :: path))).run refer) _
    rw [Course.run_sub]
    have applied := sim.apply stage.opens (means.grow (grows'.trans grows'')) (hold.grow grows'')
      hold' strict
    refine applied.atPath.mapRun ?_
    rintro value val m' ⟨more, moves, agrees, means⟩
    exact ⟨more, moves, agrees, means, rfl⟩
  · refine .never (fun _ _ ran => ?_) (fun _ _ answered => ?_)
    · obtain ⟨callee, _, ran, -⟩ := bind_eq_ok.mp ran
      rw [fails] at ran
      cases ran
    · obtain ⟨_, _, answered⟩ := Option.bind_eq_some_iff.mp answered
      obtain ⟨_, _, answered⟩ := Option.bind_eq_some_iff.mp answered
      obtain ⟨_, answered, -⟩ := Option.bind_eq_some_iff.mp answered
      have answered := setting.answered answered
      rw [stuck] at answered
      cases answered

/-! ## Several expressions -/

/-- Operands are evaluated as by name, each at a path of its own. -/
theorem Simulates.operands_step (sim : Simulates dressed globals blocked perform refer)
    (opens : Opens dressed globals blocked reading m path)
    (mapping : MappingAll (Wears dressed) es others) (suits : AllOf (Suits scope.isLazy) es)
    (none : NoneBinds es) (frames : Frames reading frame scope)
    (chooses : Chooses dressed scope.isLazy policy byName) :
    Follows dressed m ((Task.operands policy others frame).plan.run perform)
      (((Query.operands byName es scope path).course globals).run refer)
      (Gives dressed globals (Apart path) reading m (AllPassed dressed globals frame byName)) := by
  cases mapping with
  | nil => exact .pure (.same opens.agrees ⟨.nil, rfl, fun _ _ => nofun⟩)
  | cons first rest =>
    obtain ⟨suits, suits'⟩ := allOf_cons.mp suits
    obtain ⟨plain, none⟩ := none.cons
    refine opens.stage.bind (sim.operand opens.stage.opens first suits plain frames chooses) ?_
    rintro ⟨value, frame⟩ entry more m' grows stage ⟨holds, rfl, passed⟩
    replace frames := frames.grow grows
    refine stage.bind (sim.operands stage.opens rest suits' none frames chooses) ?_
    rintro ⟨values, frame⟩ entries more' m'' grows' stage ⟨hold, rfl, passed'⟩
    exact .pure (.same stage.agrees ⟨.cons (holds.grow grows') hold, rfl,
      fun byValue => List.forall_mem_cons.mpr ⟨passed byValue, passed' byValue⟩⟩)

/-- Keyword operands are evaluated as by name, each at a path of its own. -/
theorem Simulates.keywords_step (sim : Simulates dressed globals blocked perform refer)
    (opens : Opens dressed globals blocked reading m path) {es others : List (String × Expr)}
    (mapping : MappingNamed (Wears dressed) es others) (suits : AllOfKwargs (Suits scope.isLazy) es)
    (none : NoneBinds (es.map Prod.snd)) (frames : Frames reading frame scope)
    (chooses : Chooses dressed scope.isLazy policy byName) :
    Follows dressed m ((Task.keywords policy others frame).plan.run perform)
      (((Query.keywords byName es scope path).course globals).run refer)
      (Gives dressed globals (Apart path) reading m
        (NamedPassed dressed globals frame byName)) := by
  cases mapping with
  | nil => exact .pure (.same opens.agrees ⟨.nil, rfl, fun _ _ => nofun⟩)
  | cons first rest =>
    obtain ⟨suits, suits'⟩ := allOfKwargs_cons.mp suits
    obtain ⟨plain, none⟩ := none.cons
    refine opens.stage.bind (sim.operand opens.stage.opens first suits plain frames chooses) ?_
    rintro ⟨value, frame⟩ entry more m' grows stage ⟨holds, rfl, passed⟩
    replace frames := frames.grow grows
    refine stage.bind (sim.keywords stage.opens rest suits' none frames chooses) ?_
    rintro ⟨values, frame⟩ entries more' m'' grows' stage ⟨hold, rfl, passed'⟩
    exact .pure (.same stage.agrees ⟨.cons ⟨rfl, holds.grow grows'⟩ hold, rfl,
      fun byValue => List.forall_mem_cons.mpr ⟨passed byValue, passed' byValue⟩⟩)

/-- The arm that is chosen is the one that is chosen by name. -/
theorem Simulates.arms_step (sim : Simulates dressed globals blocked perform refer)
    (opens : Opens dressed globals blocked reading m path) {arms others : List (Expr × Expr)}
    {alt other : Option Expr} (mapping : MappingArms (Wears dressed) arms others)
    (mapping' : Option.Rel (Mapping (Wears dressed)) alt other)
    (suits : AllOfArms (Suits scope.isLazy) arms)
    (suits' : ∀ e ∈ alt, e.All (Suits scope.isLazy) ∧ e.isBind = false)
    (none : NoneBinds (arms.flatMap fun arm => [arm.1, arm.2]))
    (frames : Frames reading frame scope) :
    Follows dressed m ((Task.evalArms others other frame).plan.run perform)
      (((Query.arms arms alt scope path).course globals).run refer)
      (Gives dressed globals (Apart path) reading m (Valued dressed frame)) := by
  cases mapping with
  | nil =>
    cases mapping' with
    | none => exact .pure (.same opens.agrees ⟨.nil, rfl⟩)
    | some mapping =>
      obtain ⟨suits, plain⟩ := suits' _ rfl
      exact .sub (sim.eval opens mapping suits plain frames)
  | cons tests bodies rest =>
    obtain ⟨ofTest, ofBody, ofRest⟩ := allOfArms_cons.mp suits
    obtain ⟨noTest, none⟩ := none.cons
    obtain ⟨noBody, none⟩ := none.cons
    refine opens.stage.bind (sim.evalForced opens.stage.opens tests ofTest noTest frames) ?_
    rintro ⟨value, frame⟩ val more m' grows stage ⟨means, rfl⟩
    replace frames := frames.grow grows
    refine .branch (by rw [means.truthy]) (fun _ => ?_) fun _ => ?_
    · exact .sub (sim.eval stage.opens bodies ofBody noBody frames).atPath
    · exact .sub (sim.arms stage.opens rest mapping' ofRest suits' none frames).atPath

/-- A connective stops at the operand at which it stops by name. -/
theorem Simulates.short_step (sim : Simulates dressed globals blocked perform refer)
    (opens : Opens dressed globals blocked reading m path) {op : Connective}
    (mapping : MappingAll (Wears dressed) es others)
    (suits : AllOf (Suits scope.isLazy) es) (none : NoneBinds es)
    (frames : Frames reading frame scope) (means : Means dressed reading last val) :
    Follows dressed m ((Task.evalShort op others last frame).plan.run perform)
      (((Query.short op es val scope path).course globals).run refer)
      (Gives dressed globals (Apart path) reading m (Valued dressed frame)) := by
  cases mapping with
  | nil => exact .pure (.same opens.agrees ⟨means, rfl⟩)
  | cons first rest =>
    obtain ⟨suits, suits'⟩ := allOf_cons.mp suits
    obtain ⟨plain, none⟩ := none.cons
    refine opens.stage.bind (sim.evalForced opens.stage.opens first suits plain frames) ?_
    rintro ⟨value, frame⟩ val more m' grows stage ⟨means, rfl⟩
    refine .branch (by rw [means.truthy]) (fun _ => ?_) fun _ => ?_
    · exact .pure (.same stage.agrees ⟨means, rfl⟩)
    · exact .sub (sim.short stage.opens rest suits' none (frames.grow grows) means).atPath

/-- A loop ends when it ends by name, and each round is at a path of its own. -/
theorem Simulates.loop_step (sim : Simulates dressed globals blocked perform refer)
    (opens : Opens dressed globals blocked reading m path) {test test' body body' : Expr}
    (tests : Mapping (Wears dressed) test test') (bodies : Mapping (Wears dressed) body body')
    (ofTest : test.All (Suits scope.isLazy)) (ofBody : body.All (Suits scope.isLazy))
    (none : NoneBinds [test, body]) (frames : Frames reading frame scope) :
    Follows dressed m ((Task.evalLoop test' body' frame).plan.run perform)
      (((Query.loop test body scope path).course globals).run refer)
      (Gives dressed globals (Apart path) reading m (Valued dressed frame)) := by
  obtain ⟨noTest, none'⟩ := none.cons
  obtain ⟨noBody, -⟩ := none'.cons
  refine opens.stage.bind (sim.evalForced opens.stage.opens tests ofTest noTest frames) ?_
  rintro ⟨value, frame⟩ val more m' grows stage ⟨means, rfl⟩
  replace frames := frames.grow grows
  refine .branch (by rw [means.truthy]) (fun _ => ?_) fun _ => ?_
  · refine stage.bind (sim.eval stage.opens bodies ofBody noBody frames) ?_
    rintro ⟨_, frame⟩ _ more' m'' grows' stage ⟨-, rfl⟩
    exact .sub (sim.loop stage.opens tests bodies ofTest ofBody none (frames.grow grows')).atPath
  · exact .pure (.same stage.agrees ⟨.nil, rfl⟩)

/-! ## Blocks -/

/-- An item that binds nothing is evaluated before the rest of its block. -/
theorem items_course (plain : e.isBind = false) (rest : List Expr) (last : Val) :
    (Query.items (e :: rest) last scope path).course globals = (do
      let value ← Course.sub (.eval e scope (0 :: path))
      Course.sub (.items rest value scope (1 :: path))) := by
  cases e <;> first | rfl | cases plain

theorem Frames.bind (frames : Frames reading frame scope) (name : String) {ref : Nat}
    {entry : Entry} (found : reading.cells[ref]? = some entry)
    (settled : scope.isLazy = false -> entry.isThunk = false) :
    Frames reading { frame with env := (name, ref) :: frame.env }
      { scope with env := (name, entry) :: scope.env } where
  stands := .cons ⟨rfl, found⟩ frames.stands
  isLazy := frames.isLazy
  settled strict := settled_cons.mpr ⟨settled strict, frames.settled strict⟩

/-- A block is evaluated as by name, item after item, with what its items bind. -/
theorem Simulates.items_step (sim : Simulates dressed globals blocked perform refer)
    (opens : Opens dressed globals blocked reading m path)
    (mapping : MappingAll (Wears dressed) es others) (suits : AllOf (Suits scope.isLazy) es)
    (frames : Frames reading frame scope) (means : Means dressed reading last val) :
    Follows dressed m ((Task.evalItems others last frame).plan.run perform)
      (((Query.items es val scope path).course globals).run refer)
      (Gives dressed globals (Apart path) reading m (ValuedWithin dressed frame)) := by
  cases mapping with
  | nil => exact .pure (.same opens.agrees ⟨means, _, rfl⟩)
  | @cons e _ _ _ first rest =>
    obtain ⟨ofFirst, ofRest⟩ := allOf_cons.mp suits
    cases bound : e.isBind with
    | false =>
      rw [items_course bound]
      refine opens.stage.bind (sim.eval opens.stage.opens first ofFirst bound frames) ?_
      rintro ⟨value, frame⟩ val more m' grows stage ⟨means, rfl⟩
      exact .sub (sim.items stage.opens rest ofRest (frames.grow grows) means).atPath
    | true =>
      cases first with
      | @bind _ name _ _ mapping =>
        obtain ⟨self, ofBindee⟩ := Expr.all_bind.mp ofFirst
        have plain := (NoneBinds.cons self.isPure).1
        refine opens.stage.bind
          (sim.binding opens.stage.opens mapping ofBindee plain frames) ?_
        rintro ⟨value, _⟩ entry more m' grows stage ⟨rfl, settled, ref, rfl, found⟩
        have frames := (frames.grow grows).bind name found settled
        let inner : Scope := { scope with env := (name, entry) :: scope.env }
        have ofRest : AllOf (Suits inner.isLazy) _ := ofRest
        have follows := sim.items stage.opens rest ofRest frames .nil
        refine .sub (follows.atPath.imp ?_)
        rintro ⟨value, _⟩ val m'' ⟨further, moves, agrees, means, env, rfl⟩
        exact ⟨further, moves, agrees, means, env, rfl⟩
      | _ => cases bound

theorem isFunction_of_mapping {becomes : Function -> Function -> Prop}
    (mapping : Mapping becomes e other) : other.isFunction = e.isFunction := by
  cases mapping <;> rfl

/-- Binding what is not a function delays it as an operand and makes a cell. -/
theorem bind_plan (value : e.isFunction = false) : (Task.eval (.bind mark name e) frame).plan = (do
      let (value, frame) ← Plan.sub (.operand .delay e frame)
      let ref ← Plan.lift (Run.newCell value)
      pure (.nil, { frame with env := (name, ref) :: frame.env })) := by
  cases e <;> first | rfl | cases value

theorem binding_course (value : e.isFunction = false) :
    (Query.binding name e scope path).course globals =
      Course.sub (.operand scope.isLazy e scope path) := by
  cases e <;> first | rfl | cases value

/-- A name is bound to what it is bound to by name, whether it is delayed or not. -/
theorem Simulates.binding_step (sim : Simulates dressed globals blocked perform refer)
    (setting : Setting dressed globals perform refer)
    (opens : Opens dressed globals blocked reading m path)
    (mapping : Mapping (Wears dressed) e other)
    (suits : e.All (Suits scope.isLazy)) (plain : e.isBind = false)
    (frames : Frames reading frame scope) :
    Follows dressed m ((Task.eval (.bind mark name other) frame).plan.run perform)
      (((Query.binding name e scope path).course globals).run refer)
      (Gives dressed globals (Apart path) reading m (Binds frame scope.isLazy name)) := by
  cases kind : e.isFunction with
  | true =>
    cases mapping with
    | fn inside wears => exact opens.recur_follows setting frames (.fn inside wears) suits
    | _ => cases kind
  | false =>
    have chooses : Chooses dressed scope.isLazy .delay scope.isLazy := ⟨id, fun _ => id, nofun⟩
    rw [bind_plan ((isFunction_of_mapping mapping).trans kind), binding_course kind]
    refine (sim.operand opens mapping suits plain frames chooses).bind ?_
    rintro ⟨value, frame⟩ entry m' ⟨more, moves, agrees, holds, rfl, passed⟩
    obtain ⟨agrees', moves'⟩ := agrees.newCell (holds.grow (more.grows_withCell entry))
    have both := (moves.trans moves').weaken fun other (apart : Apart path other) =>
      ⟨apart, trivial⟩
    have settled : scope.isLazy = false -> entry.isThunk = false := by
      intro strict
      obtain ⟨val, rfl⟩ := passed strict
      rfl
    refine .step rfl (.pure ⟨_, both, agrees', rfl, settled, _, rfl, ?_⟩)
    simp [Reading.withCell, agrees.cells]

/-! ## Expressions -/

/-- Every expression is evaluated as by name, if that holds with less fuel. -/
theorem Simulates.eval_step (sim : Simulates dressed globals blocked perform refer)
    (setting : Setting dressed globals perform refer)
    (opens : Opens dressed globals blocked reading m path)
    (mapping : Mapping (Wears dressed) e other) (suits : e.All (Suits scope.isLazy))
    (plain : e.isBind = false) (frames : Frames reading frame scope) :
    Follows dressed m ((Task.eval other frame).plan.run perform)
      (((Query.eval e scope path).course globals).run refer)
      (Gives dressed globals (Apart path) reading m (Valued dressed frame)) := by
  have self := suits.self.isPure
  cases mapping with
  | lit => exact .pure (.same opens.agrees ⟨.ofLiteral _, rfl⟩)
  | var => exact sim.var_step setting opens self frames
  | fn inside wears =>
    have made := opens.fn_follows frames (.fn inside wears) suits
    rw [Task.full_eq] at made
    exact made
  | call funcs values named => exact sim.call_step setting opens suits funcs values named frames
  | condNone arms =>
    obtain ⟨-, ofArms⟩ := Expr.all_cond_none.mp suits
    have noArms := (List.forall_mem_append.mp self).1
    exact .sub (sim.arms opens arms .none ofArms nofun noArms frames)
  | condSome arms alt =>
    obtain ⟨-, ofArms, ofAlt⟩ := Expr.all_cond_some.mp suits
    obtain ⟨noArms, noAlt⟩ := List.forall_mem_append.mp self
    refine .sub (sim.arms opens arms (.some alt) ofArms ?_ noArms frames)
    rintro _ ⟨⟩
    exact ⟨ofAlt, noAlt _ List.mem_cons_self⟩
  | short operands =>
    obtain ⟨-, ofOperands⟩ := Expr.all_short.mp suits
    exact .sub (sim.short opens operands ofOperands self frames (.bool _))
  | seq items =>
    obtain ⟨-, ofItems⟩ := Expr.all_seq.mp suits
    show Follows _ _ _ ((Course.sub (.items _ .nil scope path)).run refer) _
    rw [Course.run_sub]
    refine (sim.items opens items ofItems frames .nil).mapRun ?_
    rintro ⟨value, _⟩ val m' ⟨more, moves, agrees, means, env, rfl⟩
    exact ⟨more, moves, agrees, means, rfl⟩
  | loop tests bodies =>
    obtain ⟨-, ofTest, ofBody⟩ := Expr.all_loop.mp suits
    exact .sub (sim.loop opens tests bodies ofTest ofBody self frames)
  | bind => cases plain
  | assign | jumpNone | jumpSome | capture => exact absurd self id

end Trampoline.ByName
