import Trampoline.Proofs.Evaluation.Equations
import Trampoline.Proofs.Simulation.Parameters

/-!
# Expressions evaluated for their value

An expression and the one in its place agree, if applications with the same fuel do. The proof goes
along the expressions; only loops use up fuel.
-/

namespace Trampoline

variable {mode : Rewriting} {n : Nat} {cc : Option Nat} {world : World}

/-- Functions have their wrappers, and applications of related callables agree with this much
fuel. -/
structure Applies (mode : Rewriting) (n : Nat) : Prop where
  dressed : mode.dressed = true
  agree : ∀ {world : World} {callable callable' : Callable} {args args' : List Value}
    {kwargs kwargs' : Kwargs} {source target : Machine},
    CallableRel mode world.cells callable callable' -> ValuesRel mode world.cells args args' ->
    KwargsRel mode world.cells kwargs kwargs' -> MachineRel mode world source target ->
    Agree mode world ((Chain.apply callable args kwargs).cut n)
      ((Chain.apply callable' args' kwargs').cut n) source target (Gives mode (ValueRel mode))

/-- Two computations of bodies agree in whatever world they run. -/
structure Evaluates {α β : Type} (mode : Rewriting) (first : Bounded Activation α)
    (second : Bounded Activation β) (rel : Pairing -> α -> β -> Prop) : Prop where
  agree : ∀ {world : World} {cc : Option Nat} {source target : Activation},
    FrameRel mode cc world.cells source.frame target.frame ->
    MachineRel mode world source.machine target.machine ->
    Agree mode world first second source target (Yields mode cc rel)

/-! ## Values -/

variable {value value' : Value} {source target : Machine} {α β : Type} {how : Treatment}
  {function : Function}

theorem force_le (settled : value.IsSettled) (n : Nat) : (Chain.force value).cut n ≤ pure value :=
  Chain.cut_le_of_eq (Chain.force_value value settled.2 n)

/-- Related values are forced alike, since they stand for themselves. -/
theorem Agree.force (related : ValueRel mode world.cells value value')
    (machines : MachineRel mode world source target) :
    Agree mode world ((Chain.force value).cut n) ((Chain.force value').cut n) source target
      (Gives mode (ValueRel mode)) :=
  (Agree.pure ⟨related, machines⟩).mono (force_le related.settled.1 n)
    (force_le related.settled.2 n)

/-- The callable that a value must be. -/
theorem Agree.callable (related : ValueRel mode world.cells value value')
    (machines : MachineRel mode world source target) :
    Agree mode world (.lift value.callable) (.lift value'.callable) source target
      (Gives mode (CallableRel mode)) := by
  cases related with
  | func same => exact Agree.pure ⟨same, machines⟩
  | _ => exact Agree.fail _ machines

/-- The callable that a value in a body must be. -/
theorem Agree.callable_body {source target : Activation}
    (related : ValueRel mode world.cells value value')
    (frames : FrameRel mode cc world.cells source.frame target.frame)
    (machines : MachineRel mode world source.machine target.machine) :
    Agree mode world (.lift value.callable) (.lift value'.callable) source target
      (Yields mode cc (CallableRel mode)) := by
  cases related with
  | func same => exact Agree.pure ⟨same, frames, machines⟩
  | _ => exact Agree.fail _ machines

namespace Evaluates

/-- What evaluates alike is forced alike. -/
theorem forced {e e' : Expr}
    (evaluates : Evaluates mode ((Chain.eval e).cut n) ((Chain.eval e').cut n) (ValueRel mode)) :
    Evaluates mode ((Chain.evalForced e).cut n) ((Chain.evalForced e').cut n) (ValueRel mode) := by
  constructor
  intro world cc source target frames machines
  refine Agree.mono ?_ (Chain.cut_le_of_eq (Chain.evalForced_eq e n))
    (Chain.cut_le_of_eq (Chain.evalForced_eq e' n))
  simp only [Chain.cut_bind, Chain.cut_within]
  refine Agree.bind (evaluates.agree frames machines) ?_
  rintro later value value' source target _ ⟨same, frames, machines⟩
  exact Agree.within frames (Agree.force same machines)

end Evaluates

/-- A strict body answers that it is strict. -/
theorem isLazy_eq {activation : Activation} (strict : activation.frame.isLazy = false) :
    Body.isLazy activation = some (.ok false, activation) := by
  rw [← strict]
  rfl

/-- Strict bodies find that they are. -/
theorem Agree.strict {source target : Activation}
    {post : Post Activation Activation α β} {next : Bool -> Bounded Activation α}
    {next' : Bool -> Bounded Activation β}
    (frames : FrameRel mode cc world.cells source.frame target.frame)
    (agree : Agree mode world (next false) (next' false) source target post) :
    Agree mode world (.lift Body.isLazy >>= next)
      (.lift Body.isLazy >>= next') source target post :=
  Agree.step_left (isLazy_eq frames.strict.1) (Agree.step_right (isLazy_eq frames.strict.2) agree)

namespace Evaluates

/-- In strict bodies an operand is evaluated at once, whatever the policy. -/
theorem operand {e e' : Expr} (policy policy' : Policy)
    (evaluates : Evaluates mode ((Chain.eval e).cut n) ((Chain.eval e').cut n) (ValueRel mode)) :
    Evaluates mode ((Chain.operand policy e).cut n) ((Chain.operand policy' e').cut n)
      (ValueRel mode) := by
  constructor
  intro world cc source target frames machines
  refine Agree.mono ?_ (Chain.cut_le_of_eq (Chain.operand_eq policy e n))
    (Chain.cut_le_of_eq (Chain.operand_eq policy' e' n))
  simp only [Chain.cut_bind, Chain.cut_lift, Chain.cut_ite]
  exact Agree.strict frames (evaluates.agree frames machines)

/-! ## Names -/

theorem lookup {name : String} (seen : mode.Sees name) :
    Evaluates mode (.lift (Body.lookup name)) (.lift (Body.lookup name)) (ValueRel mode) := by
  constructor
  rintro world cc ⟨frame, source⟩ ⟨frame', target⟩ frames machines
  rcases frames.env.lookup seen with ⟨absent, absent'⟩ | ⟨left, right, found, found', paired⟩
  · rcases machines.globals.lookup seen with ⟨free, free'⟩ | ⟨value, value', bound, bound', same⟩
    · have ends : Body.lookup name ⟨frame, source⟩ =
          some (.error (.unbound name), ⟨frame, source⟩) := by
        simp only [Body.lookup, absent, Machine.global?, free]
      have ends' : Body.lookup name ⟨frame', target⟩ =
          some (.error (.unbound name), ⟨frame', target⟩) := by
        simp only [Body.lookup, absent', Machine.global?, free']
      exact Agree.fails ends ends' machines
    · refine Agree.ends (World.le_refl world) ?_ ?_ ⟨same, frames, machines⟩
      · simp only [Body.lookup, absent, Machine.global?, bound]
      · simp only [Body.lookup, absent', Machine.global?, bound']
  · refine Agree.ends (World.le_refl world) ?_ ?_
      ⟨(machines.cells _ _ paired).2.2, frames, machines⟩
    · simp only [Body.lookup, found]
    · simp only [Body.lookup, found']

end Evaluates

/-- A name for a cell from here on. -/
theorem FrameRel.bindName {cells : Pairing} {frame frame' : Frame}
    (frames : FrameRel mode cc cells frame frame') {name : String} (seen : mode.Sees name)
    {left right : Nat} (paired : cells left right) :
    FrameRel mode cc cells { frame with env := (name, left) :: frame.env }
      { frame' with env := (name, right) :: frame'.env } :=
  { frames with
    env := .cons paired frames.env
    cc := by
      intro passing
      have differs : (continuationParam == name) = false := beq_false_of_ne (seen.1 passing).symm
      simpa only [List.lookup_cons, differs] using frames.cc passing }

namespace Agree

variable {source target : Activation} {name : String}

/-- A name for paired cells is bound alike. -/
theorem bindName (seen : mode.Sees name) {left right : Nat} (paired : world.cells left right)
    (frames : FrameRel mode cc world.cells source.frame target.frame)
    (machines : MachineRel mode world source.machine target.machine) :
    Agree mode world (.lift (Body.bindName name left)) (.lift (Body.bindName name right)) source
      target (Yields mode cc Equal) :=
  Agree.ends (World.le_refl world) rfl rfl ⟨rfl, frames.bindName seen paired, machines⟩

theorem assign (seen : mode.Sees name) {value value' : Value}
    (same : ValueRel mode world.cells value value')
    (frames : FrameRel mode cc world.cells source.frame target.frame)
    (machines : MachineRel mode world source.machine target.machine) :
    Agree mode world (.lift (Body.assign name value))
      (.lift (Body.assign name value')) source target
      (Yields mode cc Equal) := by
  obtain ⟨frame, source⟩ := source
  obtain ⟨frame', target⟩ := target
  rcases frames.env.lookup seen with ⟨absent, absent'⟩ | ⟨left, right, found, found', paired⟩
  · rcases machines.globals.lookup seen with ⟨free, free'⟩ | ⟨old, old', bound, bound', _⟩
    · have ends : Body.assign name value ⟨frame, source⟩ =
          some (.error (.unbound name), ⟨frame, source⟩) := by
        simp only [Body.assign, absent, Machine.global?, free]
      have ends' : Body.assign name value' ⟨frame', target⟩ =
          some (.error (.unbound name), ⟨frame', target⟩) := by
        simp only [Body.assign, absent', Machine.global?, free']
      exact Agree.fails ends ends' machines
    · have ends : Body.assign name value ⟨frame, source⟩ =
          some (.ok (), ⟨frame, source.define name value⟩) := by
        simp only [Body.assign, absent, Machine.global?, bound]
      have ends' : Body.assign name value' ⟨frame', target⟩ =
          some (.ok (), ⟨frame', target.define name value'⟩) := by
        simp only [Body.assign, absent', Machine.global?, bound']
      exact Agree.ends (World.le_refl world) ends ends' ⟨rfl, frames, machines.define name same⟩
  · have ends : Body.assign name value ⟨frame, source⟩ = some (.ok (),
        ⟨frame, { source with cells := source.cells.setIfInBounds left value }⟩) := by
      simp only [Body.assign, found]
    have ends' : Body.assign name value' ⟨frame', target⟩ = some (.ok (),
        ⟨frame', { target with cells := target.cells.setIfInBounds right value' }⟩) := by
      simp only [Body.assign, found']
    exact Agree.ends (World.le_refl world) ends ends' ⟨rfl, frames, machines.setCell paired same⟩

end Agree

/-! ## Closures -/

/-- A function from the source closes over its scope, and gets its wrappers. -/
theorem makeClosure_eq (plain : function.signature.kind = .plain)
    (wrappers : function.signature.wrappers = how.wrappers) (frame : Frame) (machine : Machine) :
    makeClosure function ⟨frame, machine⟩ =
      some (.ok (.func (how.dress (.closure machine.closures function frame.env))),
        ⟨frame, { machine with closures := machine.closures + 1 }⟩) := by
  obtain ⟨signature, body⟩ := function
  obtain ⟨id, name, params, decorators, regions, kind, given⟩ := signature
  simp only at plain wrappers
  subst plain wrappers
  cases how <;> rfl

theorem Evaluates.makeClosure (dressed : mode.dressed = true)
    {function' : Function} (related : FunctionRel mode how function function') :
    Evaluates mode (.lift (makeClosure function)) (.lift (makeClosure function'))
      (ValueRel mode) := by
  constructor
  rintro world cc ⟨frame, source⟩ ⟨frame', target⟩ frames machines
  have bare : function.signature.wrappers = Treatment.kept.wrappers := related.signature.bare
  have ends := makeClosure_eq related.signature.plain.1 bare frame source
  have ends' :=
    makeClosure_eq related.signature.plain.2 (related.signature.wrappers dressed) frame' target
  refine Agree.ends (World.le_refl world) ends ends' ⟨.func ?_, frames, machines.newClosure⟩
  rw [show target.closures = source.closures from machines.closures]
  exact .closure related frames.env

/-! ## Expressions -/

/-- A test decides in the same way on both sides. -/
theorem Agree.test {σ τ : Type} [HasMachine σ] [HasMachine τ] {state : σ} {state' : τ}
    {post : Post σ τ α β} {first next : Bounded σ α} {first' next' : Bounded τ β}
    (decide : Bool -> Prop) [DecidablePred decide] (same : ValueRel mode world.cells value value')
    (agree : decide value.truthy -> Agree mode world first first' state state' post)
    (agree' : ¬ decide value.truthy -> Agree mode world next next' state state' post) :
    Agree mode world (if decide value.truthy then first else next)
      (if decide value'.truthy then first' else next') state state' post := by
  rw [same.truthy_eq]
  by_cases holds : decide value.truthy
  · rw [if_pos holds, if_pos holds]
    exact agree holds
  · rw [if_neg holds, if_neg holds]
    exact agree' holds

/-- A loop agrees with another if its test and body do, whatever its own fuel. -/
theorem Evaluates.loop {test test' body body' : Expr}
    (tests : Evaluates mode ((Chain.evalForced test).cut n) ((Chain.evalForced test').cut n)
      (ValueRel mode))
    (bodies : Evaluates mode ((Chain.eval body).cut n) ((Chain.eval body').cut n) (ValueRel mode))
    (fuel : Nat) (less : fuel ≤ n) :
    Evaluates mode ((Chain.evalLoop test body).cut fuel) ((Chain.evalLoop test' body').cut fuel)
      (ValueRel mode) := by
  induction fuel with
  | zero => exact ⟨fun _ _ => Agree.zero rfl rfl⟩
  | succ fuel ih =>
    have lower := Nat.le_of_succ_le less
    constructor
    intro world cc source target frames machines
    rw [Chain.evalLoop_eq, Chain.evalLoop_eq]
    simp only [Chain.cut_bind, Chain.cut_ite, Chain.cut_pure]
    refine Agree.bind ((tests.agree frames machines).mono (Chain.cut_le _ lower)
      (Chain.cut_le _ lower)) ?_
    rintro later value value' source target _ ⟨same, frames, machines⟩
    refine Agree.test (· = true) same (fun _ => ?_) fun _ => Agree.pure ⟨.nil, frames, machines⟩
    refine Agree.bind ((bodies.agree frames machines).mono (Chain.cut_le _ lower)
      (Chain.cut_le _ lower)) ?_
    rintro later _ _ source target _ ⟨_, frames, machines⟩
    exact (ih lower).agree frames machines

mutual

/-- Related expressions evaluate alike if calls do with less fuel. -/
theorem ExprRel.evaluates (applies : Applies mode n) {e e' : Expr} (related : ExprRel mode e e') :
    Evaluates mode ((Chain.eval e).cut n) ((Chain.eval e').cut n) (ValueRel mode) := by
  constructor
  intro world cc source target frames machines
  cases related with
  | @lit mark mark' value =>
    refine Agree.mono ?_ (Chain.cut_le_of_eq (Chain.eval_lit mark value n))
      (Chain.cut_le_of_eq (Chain.eval_lit mark' value n))
    exact Agree.pure ⟨.ofLiteral value, frames, machines⟩
  | @var mark mark' name seen =>
    refine Agree.mono ?_ (Chain.cut_le_of_eq (Chain.eval_var mark name n))
      (Chain.cut_le_of_eq (Chain.eval_var mark' name n))
    simp only [Chain.cut_bind, Chain.cut_lift, Chain.cut_ite, Chain.cut_pure]
    refine Agree.bind ((Evaluates.lookup seen).agree frames machines) ?_
    rintro later value value' source target _ ⟨same, frames, machines⟩
    exact Agree.strict frames (Agree.pure ⟨same, frames, machines⟩)
  | @fn mark mark' how signature signature' body body' same bodies =>
    refine Agree.mono ?_ (Chain.cut_le_of_eq (Chain.eval_fn mark signature body n))
      (Chain.cut_le_of_eq (Chain.eval_fn mark' signature' body' n))
    simp only [Chain.cut_lift]
    exact (Evaluates.makeClosure applies.dressed ⟨same, bodies⟩).agree frames machines
  | @call mark mark' func func' args args' kwargs kwargs' funcs values named =>
    refine Agree.mono ?_ (Chain.cut_le_of_eq (Chain.eval_call mark func args kwargs n))
      (Chain.cut_le_of_eq (Chain.eval_call mark' func' args' kwargs' n))
    simp only [Chain.cut_bind, Chain.cut_lift, Chain.cut_within]
    refine Agree.bind ((ExprRel.evaluates applies funcs).forced.agree frames machines) ?_
    rintro later value value' source target _ ⟨same, frames, machines⟩
    refine Agree.bind (Agree.callable_body same frames machines) ?_
    rintro later callee callee' source target _ ⟨callees, frames, machines⟩
    refine Agree.strict frames ?_
    refine Agree.bind ((ExprsRel.operands applies values .strict .strict).agree frames machines) ?_
    rintro later args args' source target grown ⟨args, frames, machines⟩
    have callees := callees.mono grown.cells
    refine Agree.bind ((NamedRel.keywords applies named .strict .strict).agree frames machines) ?_
    rintro later kwargs kwargs' source target grown ⟨kwargs, frames, machines⟩
    exact Agree.within frames
      (applies.agree (callees.mono grown.cells) (args.mono grown.cells) kwargs machines)
  | @condNone mark mark' arms arms' same =>
    refine Agree.mono ?_ (Chain.cut_le_of_eq (Chain.eval_cond mark arms none n))
      (Chain.cut_le_of_eq (Chain.eval_cond mark' arms' none n))
    refine (ArmsRel.evaluates applies same ⟨?_⟩).agree frames machines
    intro world cc source target frames machines
    exact Agree.mono (Agree.pure ⟨.nil, frames, machines⟩)
      (Chain.cut_le_of_eq (Chain.evalArms_nil_none n))
      (Chain.cut_le_of_eq (Chain.evalArms_nil_none n))
  | @condSome mark mark' arms arms' alt alt' same other =>
    refine Agree.mono ?_ (Chain.cut_le_of_eq (Chain.eval_cond mark arms (some alt) n))
      (Chain.cut_le_of_eq (Chain.eval_cond mark' arms' (some alt') n))
    refine (ArmsRel.evaluates applies same ⟨?_⟩).agree frames machines
    intro world cc source target frames machines
    exact Agree.mono ((ExprRel.evaluates applies other).agree frames machines)
      (Chain.cut_le_of_eq (Chain.evalArms_nil_some alt n))
      (Chain.cut_le_of_eq (Chain.evalArms_nil_some alt' n))
  | @short mark mark' op es es' same =>
    refine Agree.mono ?_ (Chain.cut_le_of_eq (Chain.eval_short mark op es n))
      (Chain.cut_le_of_eq (Chain.eval_short mark' op es' n))
    exact ExprsRel.short applies same op .bool frames machines
  | @seq mark mark' es es' same =>
    refine Agree.mono ?_ (Chain.cut_le_of_eq (Chain.eval_seq mark es n))
      (Chain.cut_le_of_eq (Chain.eval_seq mark' es' n))
    exact Agree.inBlock frames (ExprsRel.items applies same .nil frames machines)
  | @bind mark mark' name e e' seen same =>
    by_cases isFn : ∃ inner signature body, e = .fn inner signature body
    · obtain ⟨inner, signature, body, rfl⟩ := isFn
      have evaluates := ExprRel.evaluates applies same
      cases same with
      | @fn _ inner' how _ signature' _ body' =>
        refine Agree.mono ?_
          (Chain.cut_le_of_eq (Chain.eval_bind_fn mark name inner signature body n))
          (Chain.cut_le_of_eq (Chain.eval_bind_fn mark' name inner' signature' body' n))
        simp only [Chain.cut_bind, Chain.cut_lift, Chain.cut_pure, ← Bounded.within_lift]
        refine Agree.bind (Agree.within frames (Agree.newCell .nil machines)) ?_
        rintro later left right source target _ ⟨paired, frames, machines⟩
        refine Agree.bind (Agree.bindName seen paired frames machines) ?_
        rintro later _ _ source target grown ⟨_, frames, machines⟩
        have paired := grown.cells _ _ paired
        refine Agree.bind (evaluates.agree frames machines) ?_
        rintro later value value' source target grown ⟨same, frames, machines⟩
        have paired := grown.cells _ _ paired
        refine Agree.bind (Agree.within frames (Agree.setCell paired same machines)) ?_
        rintro later _ _ source target _ ⟨_, frames, machines⟩
        exact Agree.pure ⟨.nil, frames, machines⟩
    · have noFn : ∀ inner signature body, e ≠ .fn inner signature body :=
        fun inner signature body equal => isFn ⟨inner, signature, body, equal⟩
      have noFn' : ∀ inner signature body, e' ≠ .fn inner signature body := by
        rintro inner signature body rfl
        cases same
        exact noFn _ _ _ rfl
      refine Agree.mono ?_ (Chain.cut_le_of_eq (Chain.eval_bind mark name e noFn n))
        (Chain.cut_le_of_eq (Chain.eval_bind mark' name e' noFn' n))
      simp only [Chain.cut_bind, Chain.cut_lift, Chain.cut_pure, ← Bounded.within_lift]
      refine Agree.bind
        (((ExprRel.evaluates applies same).operand .delay .delay).agree frames machines) ?_
      rintro later value value' source target _ ⟨same, frames, machines⟩
      refine Agree.bind (Agree.within frames (Agree.newCell same machines)) ?_
      rintro later left right source target _ ⟨paired, frames, machines⟩
      refine Agree.bind (Agree.bindName seen paired frames machines) ?_
      rintro later _ _ source target _ ⟨_, frames, machines⟩
      exact Agree.pure ⟨.nil, frames, machines⟩
  | @assign mark mark' name e e' seen same =>
    refine Agree.mono ?_ (Chain.cut_le_of_eq (Chain.eval_assign mark name e n))
      (Chain.cut_le_of_eq (Chain.eval_assign mark' name e' n))
    simp only [Chain.cut_bind, Chain.cut_lift, Chain.cut_pure]
    refine Agree.bind
      (((ExprRel.evaluates applies same).operand .strict .strict).agree frames machines) ?_
    rintro later value value' source target _ ⟨same, frames, machines⟩
    refine Agree.bind (Agree.assign seen same frames machines) ?_
    rintro later _ _ source target _ ⟨_, frames, machines⟩
    exact Agree.pure ⟨.nil, frames, machines⟩
  | @loop mark mark' test test' body body' tests bodies =>
    refine Agree.mono ?_ (Chain.cut_le_of_eq (Chain.eval_loop mark test body n))
      (Chain.cut_le_of_eq (Chain.eval_loop mark' test' body' n))
    exact (Evaluates.loop (ExprRel.evaluates applies tests).forced
      (ExprRel.evaluates applies bodies)
      n (Nat.le_refl n)).agree frames machines

theorem ExprsRel.operands (applies : Applies mode n) {es es' : List Expr}
    (related : ExprsRel mode es es') (policy policy' : Policy) :
    Evaluates mode ((Chain.operands policy es).cut n) ((Chain.operands policy' es').cut n)
      (ValuesRel mode) := by
  constructor
  intro world cc source target frames machines
  cases related with
  | nil =>
    exact Agree.mono (Agree.pure ⟨.nil, frames, machines⟩)
      (Chain.cut_le_of_eq (Chain.operands_nil policy n))
      (Chain.cut_le_of_eq (Chain.operands_nil policy' n))
  | @cons e e' rest rest' first others =>
    refine Agree.mono ?_ (Chain.cut_le_of_eq (Chain.operands_cons policy e rest n))
      (Chain.cut_le_of_eq (Chain.operands_cons policy' e' rest' n))
    simp only [Chain.cut_bind, Chain.cut_pure]
    refine Agree.bind
      (((ExprRel.evaluates applies first).operand policy policy').agree frames machines) ?_
    rintro later value value' source target _ ⟨same, frames, machines⟩
    refine Agree.bind ((ExprsRel.operands applies others policy policy').agree frames machines) ?_
    rintro later values values' source target grown ⟨sames, frames, machines⟩
    exact Agree.pure ⟨.cons (same.mono grown.cells) sames, frames, machines⟩

theorem NamedRel.keywords (applies : Applies mode n) {kwargs kwargs' : List (String × Expr)}
    (related : NamedRel mode kwargs kwargs') (policy policy' : Policy) :
    Evaluates mode ((Chain.keywords policy kwargs).cut n) ((Chain.keywords policy' kwargs').cut n)
      (KwargsRel mode) := by
  constructor
  intro world cc source target frames machines
  cases related with
  | nil =>
    exact Agree.mono (Agree.pure ⟨.nil, frames, machines⟩)
      (Chain.cut_le_of_eq (Chain.keywords_nil policy n))
      (Chain.cut_le_of_eq (Chain.keywords_nil policy' n))
  | @cons name e e' rest rest' seen first others =>
    refine Agree.mono ?_ (Chain.cut_le_of_eq (Chain.keywords_cons policy name e rest n))
      (Chain.cut_le_of_eq (Chain.keywords_cons policy' name e' rest' n))
    simp only [Chain.cut_bind, Chain.cut_pure]
    refine Agree.bind
      (((ExprRel.evaluates applies first).operand policy policy').agree frames machines) ?_
    rintro later value value' source target _ ⟨same, frames, machines⟩
    refine Agree.bind ((NamedRel.keywords applies others policy policy').agree frames machines) ?_
    rintro later values values' source target grown ⟨sames, frames, machines⟩
    exact Agree.pure ⟨.cons seen (same.mono grown.cells) sames, frames, machines⟩

theorem ArmsRel.evaluates (applies : Applies mode n) {arms arms' : List (Expr × Expr)}
    (related : ArmsRel mode arms arms') {alt alt' : Option Expr}
    (others : Evaluates mode ((Chain.evalArms [] alt).cut n) ((Chain.evalArms [] alt').cut n)
      (ValueRel mode)) :
    Evaluates mode ((Chain.evalArms arms alt).cut n) ((Chain.evalArms arms' alt').cut n)
      (ValueRel mode) := by
  constructor
  intro world cc source target frames machines
  cases related with
  | nil => exact others.agree frames machines
  | @cons test test' body body' rest rest' tests bodies same =>
    refine Agree.mono ?_ (Chain.cut_le_of_eq (Chain.evalArms_cons test body rest alt n))
      (Chain.cut_le_of_eq (Chain.evalArms_cons test' body' rest' alt' n))
    simp only [Chain.cut_bind, Chain.cut_ite]
    refine Agree.bind ((ExprRel.evaluates applies tests).forced.agree frames machines) ?_
    rintro later value value' source target _ ⟨tested, frames, machines⟩
    exact Agree.test (· = true) tested (fun _ =>
      (ExprRel.evaluates applies bodies).agree frames machines)
      fun _ => (ArmsRel.evaluates applies same others).agree frames machines

theorem ExprsRel.short (applies : Applies mode n) {es es' : List Expr}
    (related : ExprsRel mode es es') (op : Connective) {world : World} {cc : Option Nat}
    {last last' : Value} (before : ValueRel mode world.cells last last')
    {source target : Activation}
    (frames : FrameRel mode cc world.cells source.frame target.frame)
    (machines : MachineRel mode world source.machine target.machine) :
    Agree mode world ((Chain.evalShort op es last).cut n) ((Chain.evalShort op es' last').cut n)
      source target (Yields mode cc (ValueRel mode)) := by
  cases related with
  | nil =>
    exact Agree.mono (Agree.pure ⟨before, frames, machines⟩)
      (Chain.cut_le_of_eq (Chain.evalShort_nil op last n))
      (Chain.cut_le_of_eq (Chain.evalShort_nil op last' n))
  | @cons e e' rest rest' first others =>
    refine Agree.mono ?_ (Chain.cut_le_of_eq (Chain.evalShort_cons op e rest last n))
      (Chain.cut_le_of_eq (Chain.evalShort_cons op e' rest' last' n))
    simp only [Chain.cut_bind, Chain.cut_ite, Chain.cut_pure]
    refine Agree.bind ((ExprRel.evaluates applies first).forced.agree frames machines) ?_
    rintro later value value' source target _ ⟨same, frames, machines⟩
    exact Agree.test (fun truthy => (truthy = true) = (op = .or)) same
      (fun _ => Agree.pure ⟨same, frames, machines⟩)
      fun _ => ExprsRel.short applies others op same frames machines

theorem ExprsRel.items (applies : Applies mode n) {es es' : List Expr}
    (related : ExprsRel mode es es') {world : World} {cc : Option Nat} {last last' : Value}
    (before : ValueRel mode world.cells last last') {source target : Activation}
    (frames : FrameRel mode cc world.cells source.frame target.frame)
    (machines : MachineRel mode world source.machine target.machine) :
    Agree mode world ((Chain.evalItems es last).cut n) ((Chain.evalItems es' last').cut n) source
      target (Yields mode cc (ValueRel mode)) := by
  cases related with
  | nil =>
    exact Agree.mono (Agree.pure ⟨before, frames, machines⟩)
      (Chain.cut_le_of_eq (Chain.evalItems_nil last n))
      (Chain.cut_le_of_eq (Chain.evalItems_nil last' n))
  | @cons e e' rest rest' first others =>
    refine Agree.mono ?_ (Chain.cut_le_of_eq (Chain.evalItems_cons e rest last n))
      (Chain.cut_le_of_eq (Chain.evalItems_cons e' rest' last' n))
    simp only [Chain.cut_bind]
    refine Agree.bind ((ExprRel.evaluates applies first).agree frames machines) ?_
    rintro later value value' source target _ ⟨same, frames, machines⟩
    exact ExprsRel.items applies others same frames machines

end

end Trampoline
