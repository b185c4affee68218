import Trampoline.Proofs.Simulation.Expressions

/-!
# Expressions in tail position

What a rewritten body leaves behind is run on by a trampoline, while the source body goes on in its
callers. Both are continuations here: `next` is what the callers of the source body do with its
value, and `drive` is the trampoline. A continuation of the rewritten program stands for `next` if
jumping to it agrees with going on. The proof goes along the expressions in tail position, and at
their ends it uses that jumps to functions agree with calls when there is as much fuel.
-/

namespace Trampoline

variable {mode : Rewriting} {n k : Nat} {cc : Option Nat} {world later : World}

/-- Leave a jump and let the loop of a trampoline run it. -/
noncomputable def jumpTo (jump : Jump) (n : Nat) : Bounded Machine Value :=
  .lift (Run.newJump jump) >>= fun value => (Chain.runJumps .strict value).cut n

theorem jumpTo_le (jump : Jump) (less : n ≤ k) : jumpTo jump n ≤ jumpTo jump k :=
  Bounded.bind_le (Bounded.le_refl _) fun value => (Chain.runJumps .strict value).cut_le less

/-- What is done with a value does nothing to it. -/
def Returns (next : Value -> Bounded Machine Value) : Prop :=
  ∀ value : Value, value.IsSettled -> next value ≤ pure value

/-- Jumping to a continuation agrees with going on. -/
structure Resumes (mode : Rewriting) (n : Nat) (world : World)
    (next : Value -> Bounded Machine Value) (callable : Callable) : Prop where
  agree : ∀ {later : World} {value value' : Value} {source target : Machine}, world ≤ later ->
    ValueRel mode later.cells value value' -> MachineRel mode later source target ->
    Agree mode later (next value) (jumpTo ⟨callable, [value'], [], none⟩ n) source target
      (Gives mode (ValueRel mode))

/-- Jumps to functions agree with calls. Besides, what a function that takes a continuation does
agrees with a call and what comes after it. -/
structure Lands (mode : Rewriting) (n : Nat) : Prop where
  call : ∀ {world : World} {callable callable' : Callable} {args args' : List Value}
    {kwargs kwargs' : Kwargs} {source target : Machine} {next : Value -> Bounded Machine Value},
    CallableRel mode world.cells callable callable' -> ValuesRel mode world.cells args args' ->
    KwargsRel mode world.cells kwargs kwargs' -> MachineRel mode world source target ->
    Returns next ->
    Agree mode world ((Chain.apply callable args kwargs).cut n >>= next)
      (jumpTo ⟨callable', args', kwargs', none⟩ (n + 1)) source target (Gives mode (ValueRel mode))
  pass : ∀ {world : World} {callable callable' cont : Callable} {args args' : List Value}
    {kwargs kwargs' : Kwargs} {source target : Machine} {next : Value -> Bounded Machine Value},
    CallableRel mode world.cells callable callable' -> ValuesRel mode world.cells args args' ->
    KwargsRel mode world.cells kwargs kwargs' -> MachineRel mode world source target ->
    mode.passing = true -> (mode.total = false -> Returns next) ->
    Resumes mode n world next cont ->
    Agree mode world ((Chain.apply callable args kwargs).cut n >>= next)
      (jumpTo ⟨callable', args', kwargs', some (.func cont)⟩ (n + 1)) source target
      (Gives mode (ValueRel mode))

/-- What runs the jump that a body leaves behind, if it leaves one. -/
structure Drives (n : Nat) (drive : Value -> Bounded Machine Value) : Prop where
  jump : (∀ ref, drive (.jump ref) ≤ (Chain.runJumps .strict (.jump ref)).cut n) ∨
    ∀ ref, drive (.jump ref) ≤ ((Chain.runJumps .strict (.jump ref)).cut n).guarded
  value : Returns drive

/-- What comes after a body of this treatment: nothing, if the body may return its value, else what
its continuation stands for. -/
structure Follows (mode : Rewriting) (how : Treatment) (n : Nat) (world : World) (cc : Option Nat)
    (next : Value -> Bounded Machine Value) : Prop where
  returns : mode.MayReturn how -> Returns next
  resumes : how = .passing -> mode.passing = true ∧ ∃ ref callable, cc = some ref ∧
    world.conts ref callable ∧ Resumes mode n world next callable

/-- A body and its rewritten form agree with what comes after them. -/
structure Ends (mode : Rewriting) (how : Treatment) (n : Nat)
    (body body' : Bounded Activation Value) :
    Prop where
  agree : ∀ {world : World} {cc : Option Nat} {frame frame' : Frame} {source target : Machine}
    {next drive : Value -> Bounded Machine Value},
    FrameRel mode cc world.cells frame frame' -> MachineRel mode world source target ->
    Follows mode how (n + 1) world cc next -> Drives (n + 1) drive ->
    Agree mode world (body.bodyRun frame >>= next) (body'.bodyRun frame' >>= drive) source target
      (Gives mode (ValueRel mode))

/-! ## Continuations -/

variable {next before : Value -> Bounded Machine Value} {callable : Callable} {how : Treatment}
  {body : Bounded Activation Value} {source target : Machine} {first : Bounded Machine Value}
  {jump : Jump} {mark mark' : Mark} {func func' : Expr} {args args' items' : List Expr}
  {kwargs kwargs' : List (String × Expr)} {frame frame' : Frame} {ref : Nat} {name : String}
  {signature : Signature}

theorem Resumes.mono (resumes : Resumes mode k world next callable) (less : n ≤ k)
    (order : world ≤ later) :
    Resumes mode n later next callable where
  agree := fun after same machines =>
    (resumes.agree (World.le_trans order after) same machines).mono (Bounded.le_refl _)
      (jumpTo_le _ less)

/-- A continuation agrees with less of what comes after. -/
theorem Resumes.below (resumes : Resumes mode n world next callable)
    (lower : ∀ value : Value, value.IsSettled -> before value ≤ next value) :
    Resumes mode n world before callable where
  agree := fun after same machines =>
    (resumes.agree after same machines).mono (lower _ same.settled.1) (Bounded.le_refl _)

theorem Follows.mono (follows : Follows mode how k world cc next) (less : n ≤ k)
    (order : world ≤ later) :
    Follows mode how n later cc next where
  returns := follows.returns
  resumes := by
    intro passing
    obtain ⟨enabled, ref, callable, found, holds, resumes⟩ := follows.resumes passing
    exact ⟨enabled, ref, callable, found, order.conts _ _ holds, resumes.mono less order⟩

/-- Less of what follows a body follows it too. -/
theorem Follows.below (follows : Follows mode how n world cc next)
    (lower : ∀ value : Value, value.IsSettled -> before value ≤ next value) :
    Follows mode how n world cc before where
  returns := fun may value settled =>
    Bounded.le_trans (lower value settled) (follows.returns may value settled)
  resumes := by
    intro passing
    obtain ⟨enabled, ref, callable, found, holds, resumes⟩ := follows.resumes passing
    exact ⟨enabled, ref, callable, found, holds, resumes.below lower⟩

theorem Ends.mono {body' lower lower' : Bounded Activation Value}
    (ends : Ends mode how n body body') (below : lower ≤ body) (below' : lower' ≤ body') :
    Ends mode how n lower lower' where
  agree := fun frames machines follows drives =>
    (ends.agree frames machines follows drives).mono
      (Bounded.bind_le (Bounded.bodyRun_le below _) fun _ => Bounded.le_refl _)
      (Bounded.bind_le (Bounded.bodyRun_le below' _) fun _ => Bounded.le_refl _)

/-! ## Jumps -/

theorem MachineRel.newJump (machines : MachineRel mode world source target)
    (jumps : Array JumpRecord) : MachineRel mode world source { target with jumps := jumps } :=
  { machines with }

/-- Whatever runs jumps runs a new jump as the loop of a trampoline does. -/
theorem Agree.drive {drive : Value -> Bounded Machine Value} (drives : Drives n drive)
    (machines : MachineRel mode world source target)
    (agree : Agree mode world first (jumpTo jump n) source target (Gives mode (ValueRel mode))) :
    Agree mode world first (.lift (Run.newJump jump) >>= drive) source target
      (Gives mode (ValueRel mode)) := by
  have runs := agree.of_step_right rfl
  refine Agree.step_right rfl ?_
  rcases drives.jump with plain | guarded
  · exact runs.mono (Bounded.le_refl _) (plain _)
  · exact (runs.guarded_right (machines.newJump _)).mono (Bounded.le_refl _) (guarded _)

/-- The loop over jumps drives what a body leaves behind. -/
theorem Drives.runJumps (n : Nat) : Drives n fun value => (Chain.runJumps .strict value).cut n where
  jump := .inl fun _ => Bounded.le_refl _
  value := fun value settled =>
    Chain.cut_le_of_eq (Chain.runJumps_value .strict value settled.1 n)

/-- The trampoline takes a new jump, which leaves the jump's landing and whatever comes of it. -/
theorem Agree.land (machines : MachineRel mode world source target)
    (agree : ∀ {target : Machine}, MachineRel mode world source target ->
      Agree mode world first ((Chain.landing jump).cut n >>= fun value =>
        (Chain.runJumps .strict value).cut (n + 1)) source target (Gives mode (ValueRel mode))) :
    Agree mode world first (jumpTo jump (n + 2)) source target (Gives mode (ValueRel mode)) := by
  refine Agree.step_right rfl ?_
  rw [Chain.runJumps_jump]
  simp only [Chain.cut_bind, Chain.takeStep_eq, Chain.cut_lift, bind_assoc]
  have taken :
    Run.takeJump target.jumps.size { target with jumps := target.jumps.push (.pending jump) } =
      some (.ok jump, { target with
        jumps :=
          (target.jumps.push (.pending jump)).setIfInBounds target.jumps.size .consumed }) := by
    simp only [Run.takeJump, Machine.jump, getD_push_size]
  refine Agree.step_right taken ?_
  have forced := Chain.cut_le_of_eq (Chain.forceForStrict_strict jump.target.underTrampoline
    jump.args jump.kwargs n)
  refine Agree.mono ?_ (Bounded.le_refl _) (Bounded.bind_le forced fun _ => Bounded.le_refl _)
  rw [pure_bind]
  refine Agree.step_right rfl ?_
  exact agree { machines with }

/-- A call and a jump evaluate the same parts. What is then left is the call and what comes after it
on one side, and the continuation and the jump on the other. -/
theorem Agree.callJump (applies : Applies mode n)
    {cont : Option Expr} (funcs : ExprRel mode func func') (values : ExprsRel mode args args')
    (named : NamedRel mode kwargs kwargs')
    {part : Value -> Bounded Activation Value} {drive : Value -> Bounded Machine Value}
    (frames : FrameRel mode cc world.cells frame frame')
    (machines : MachineRel mode world source target)
    (finish : ∀ {later : World} {callee callee' : Callable} {args args' : List Value}
      {kwargs kwargs' : Kwargs} {frame frame' : Frame} {source target : Machine}, world ≤ later ->
      CallableRel mode later.cells callee callee' -> ValuesRel mode later.cells args args' ->
      KwargsRel mode later.cells kwargs kwargs' -> FrameRel mode cc later.cells frame frame' ->
      MachineRel mode later source target ->
      Agree mode later
        ((Chain.apply callee args kwargs).cut n >>= fun value =>
          (part value).bodyRun frame >>= next)
        (((Chain.evalContinuation cont).cut n >>= fun value =>
          .lift (Run.within (Run.newJump ⟨callee', args', kwargs', value⟩))).bodyRun frame' >>=
            drive)
        source target (Gives mode (ValueRel mode))) :
    Agree mode world
      (((Chain.eval (.call mark func args kwargs)).cut n >>= part).bodyRun frame >>= next)
      (((Chain.eval (.jump mark' func' args' kwargs' cont)).cut n).bodyRun frame' >>= drive) source
      target (Gives mode (ValueRel mode)) := by
  have call := Chain.cut_le_of_eq (Chain.eval_call mark func args kwargs n)
  have jump := Chain.cut_le_of_eq (Chain.eval_jump mark' func' args' kwargs' cont n)
  refine Agree.mono ?_
    (Bounded.bind_le (Bounded.bodyRun_le (Bounded.bind_le call fun _ => Bounded.le_refl _) _)
      fun _ => Bounded.le_refl _)
    (Bounded.bind_le (Bounded.bodyRun_le jump _) fun _ => Bounded.le_refl _)
  simp only [Chain.cut_bind, Chain.cut_lift, Chain.cut_within, bind_assoc]
  refine Agree.bodyRun_bind ((ExprRel.evaluates applies funcs).forced.agree frames machines) ?_
  rintro later value value' ⟨frame, source⟩ ⟨frame', target⟩ order ⟨same, frames, machines⟩
  refine Agree.bodyRun_bind (Agree.callable_body same frames machines) ?_
  rintro later callee callee' ⟨frame, source⟩ ⟨frame', target⟩ order' ⟨callees, frames, machines⟩
  have order := World.le_trans order order'
  refine Agree.bodyRun_step_left (isLazy_eq frames.strict.1) ?_
  refine Agree.bodyRun_bind
    ((ExprsRel.operands applies values .strict .delay).agree frames machines) ?_
  rintro later args args' ⟨frame, source⟩ ⟨frame', target⟩ order' ⟨args, frames, machines⟩
  have callees := callees.mono order'.cells
  have order := World.le_trans order order'
  refine Agree.bodyRun_bind
    ((NamedRel.keywords applies named .strict .delay).agree frames machines) ?_
  rintro later kwargs kwargs' ⟨frame, source⟩ ⟨frame', target⟩ order' ⟨kwargs, frames, machines⟩
  rw [Bounded.bodyRun_within_bind, bind_assoc]
  exact finish (World.le_trans order order') (callees.mono order'.cells) (args.mono order'.cells)
    kwargs frames machines

namespace Ends

variable {how : Treatment} {body body' : Bounded Activation Value}

/-! ## The ends of bodies -/

/-- A body that may return its value. -/
theorem keep (may : mode.MayReturn how) (evaluates : Evaluates mode body body' (ValueRel mode)) :
    Ends mode how n body body' where
  agree := by
    intro world cc frame frame' source target next drive frames machines follows drives
    have runs : Agree mode world (body.bodyRun frame) (body'.bodyRun frame') source target
        (Gives mode (ValueRel mode)) :=
      Agree.bodyRun (evaluates.agree frames machines) fun _ _ _ _ _ holds => ⟨holds.1, holds.2.2⟩
    refine Agree.bind runs ?_
    rintro later value value' source target _ ⟨same, machines⟩
    exact (Agree.pure ⟨same, machines⟩).mono (follows.returns may value same.settled.1)
      (drives.value value' same.settled.2)

/-- A block around a body that ends so ends so. -/
theorem inBlock (ends : Ends mode how n body body') :
    Ends mode how n body.inBlock body'.inBlock where
  agree := by
    intro world cc frame frame' source target next drive frames machines follows drives
    rw [Bounded.bodyRun_inBlock, Bounded.bodyRun_inBlock]
    exact ends.agree frames machines follows drives

/-- Forcing the value of a body does nothing to it, nor to the jump that is left instead. -/
theorem forced {e e' : Expr}
    (ends : Ends mode how n ((Chain.eval e).cut n) ((Chain.eval e').cut n)) :
    Ends mode how n ((Chain.evalForced e).cut n) ((Chain.evalForced e').cut n) := by
  have lower (e : Expr) := Chain.cut_le_of_eq (Chain.evalForced_eq e n)
  refine Ends.mono ⟨?_⟩ (lower e) (lower e')
  intro world cc frame frame' source target next drive frames machines follows drives
  have force_next (next : Value -> Bounded Machine Value) (value : Value)
      (plain : ∀ ref, value ≠ .promise ref) :
      ((Chain.force value).cut n >>= next) ≤ next value :=
    Bounded.bind_le (Chain.cut_le_of_eq (Chain.force_value value plain n)) fun _ =>
      Bounded.le_refl _
  simp only [Chain.cut_bind, Chain.cut_within, Bounded.bodyRun_bind_within, bind_assoc]
  refine ends.agree frames machines
    (follows.below fun value settled => force_next next value settled.2)
    ⟨?_, fun value settled => Bounded.le_trans (force_next drive value settled.2)
      (drives.value value settled)⟩
  exact drives.jump.imp
    (fun plain ref => Bounded.le_trans (force_next drive _ fun _ => nofun) (plain ref))
    (fun guarded ref => Bounded.le_trans (force_next drive _ fun _ => nofun) (guarded ref))

end Ends

/-- The continuation of a function is in its parameter. -/
theorem Agree.evalCc (enabled : mode.passing = true) (found : cc = some ref)
    (holds : world.conts ref callable) (frames : FrameRel mode cc world.cells frame frame')
    (machines : MachineRel mode world source target) :
    Agree mode world (pure () : Bounded Activation Unit)
      ((Chain.evalForced (.var mark continuationParam)).cut n) ⟨frame, source⟩ ⟨frame', target⟩
      fun later _ value first second => later = world ∧ value = .func callable ∧
        first = ⟨frame, source⟩ ∧ second = ⟨frame', target⟩ := by
  have looked : Body.lookup continuationParam ⟨frame', target⟩ =
      some (.ok (.func callable), ⟨frame', target⟩) := by
    simp only [Body.lookup, frames.cc enabled, found, (machines.conts _ _ holds).2.1]
  refine Agree.mono ?_ (Bounded.le_refl _) (Chain.cut_le_of_eq (Chain.evalForced_eq _ n))
  rw [Chain.cut_bind]
  refine Agree.mono ?_ (Bounded.le_refl _) (Bounded.bind_le
    (Chain.cut_le_of_eq (Chain.eval_var mark continuationParam n)) fun _ => Bounded.le_refl _)
  simp only [Chain.cut_bind, Chain.cut_lift, Chain.cut_ite, Chain.cut_pure, Chain.cut_within,
    bind_assoc]
  refine Agree.step_right looked (Agree.step_right (isLazy_eq frames.strict.2) ?_)
  simp only [Bool.false_eq_true, if_false, pure_bind]
  exact Agree.mono (Agree.pure ⟨rfl, rfl, rfl, rfl⟩) (Bounded.le_refl _)
    (Bounded.within_le (force_le (Value.func_settled callable) n))

/-- The only argument of a jump. -/
theorem Evaluates.singleton {e' : Expr}
    (evaluates : Evaluates mode body ((Chain.eval e').cut n) (ValueRel mode)) :
    Evaluates mode body ((Chain.operands .delay [e']).cut n) fun cells value args =>
      ∃ value', args = [value'] ∧ ValueRel mode cells value value' where
  agree := by
    intro world cc source target frames machines
    refine Agree.mono ?_ (Bounded.le_refl _)
      (Chain.cut_le_of_eq (Chain.operands_cons .delay e' [] n))
    simp only [Chain.cut_bind, Chain.cut_pure]
    refine Agree.mono ?_ (Bounded.le_refl _) (Bounded.bind_le
      (Chain.cut_le_of_eq (Chain.operand_eq .delay e' n)) fun _ => Bounded.bind_le
        (Chain.cut_le_of_eq (Chain.operands_nil .delay n)) fun _ => Bounded.le_refl _)
    simp only [Chain.cut_bind, Chain.cut_lift, Chain.cut_ite, bind_assoc, pure_bind]
    refine Agree.step_right (isLazy_eq frames.strict.2) ?_
    simp only [Bool.false_eq_true, if_false]
    rw [← bind_pure body]
    refine Agree.bind (evaluates.agree frames machines) ?_
    rintro later value value' source target _ ⟨same, frames, machines⟩
    exact Agree.pure ⟨⟨value', rfl, same⟩, frames, machines⟩

namespace Ends

variable {mark mark' ccMark : Mark} {func func' : Expr} {args args' : List Expr}
  {kwargs kwargs' : List (String × Expr)}

/-- A returned call that becomes a jump. -/
theorem defer (applies : Applies mode n) (lands : Lands mode n) {how : Treatment}
    (may : mode.MayReturn how) (funcs : ExprRel mode func func')
    (values : ExprsRel mode args args') (named : NamedRel mode kwargs kwargs') :
    Ends mode how n ((Chain.eval (.call mark func args kwargs)).cut n)
      ((Chain.eval (.jump mark' func' args' kwargs' none)).cut n) where
  agree := by
    intro world cc frame frame' source target next drive frames machines follows drives
    rw [← bind_pure ((Chain.eval (.call mark func args kwargs)).cut n)]
    refine Agree.callJump applies funcs values named frames machines ?_
    intro later callee callee' args args' kwargs kwargs' frame frame' source target _ callees values
      named frames machines
    have none_le := Chain.cut_le_of_eq (Chain.evalContinuation_none n)
    refine Agree.mono ?_ (Bounded.le_refl _) (Bounded.bind_le (Bounded.bodyRun_le
      (Bounded.bind_le none_le fun _ => Bounded.le_refl _) _) fun _ => Bounded.le_refl _)
    simp only [pure_bind, Bounded.bodyRun_pure, ← Bounded.within_lift, Bounded.bodyRun_within]
    exact Agree.drive drives machines
      (lands.call callees values named machines (follows.returns may))

/-- A returned call that becomes a jump with the continuation of the function around it. -/
theorem pass (applies : Applies mode n) (lands : Lands mode n)
    (funcs : ExprRel mode func func') (values : ExprsRel mode args args')
    (named : NamedRel mode kwargs kwargs') :
    Ends mode .passing n ((Chain.eval (.call mark func args kwargs)).cut n)
      ((Chain.eval
        (.jump mark' func' args' kwargs' (some (.var ccMark continuationParam)))).cut n) where
  agree := by
    intro world cc frame frame' source target next drive frames machines follows drives
    obtain ⟨enabled, ref, callable, found, holds, resumes⟩ := follows.resumes rfl
    rw [← bind_pure ((Chain.eval (.call mark func args kwargs)).cut n)]
    refine Agree.callJump applies funcs values named frames machines ?_
    intro later callee callee' args args' kwargs kwargs' frame frame' source target order callees
      values named frames machines
    have some_le := Chain.cut_le_of_eq
      (Chain.evalContinuation_some (.var ccMark continuationParam) n)
    refine Agree.mono ?_ (Bounded.le_refl _) (Bounded.bind_le (Bounded.bodyRun_le
      (Bounded.bind_le some_le fun _ => Bounded.le_refl _) _) fun _ => Bounded.le_refl _)
    simp only [Chain.cut_bind, Chain.cut_pure, bind_assoc, pure_bind, Bounded.bodyRun_pure]
    refine Agree.bodyRun_bind_right
      (Agree.evalCc enabled found (order.conts _ _ holds) frames machines) ?_
    rintro _ _ _ _ _ ⟨rfl, rfl, rfl, rfl⟩
    rw [← Bounded.within_lift, Bounded.bodyRun_within]
    have resumes := resumes.mono (Nat.le_succ n) order
    exact Agree.drive drives machines (lands.pass callees values named machines enabled
      (fun partly => follows.returns fun _ => partly) resumes)

/-- A returned value that is handed to the continuation of the function around it. -/
theorem handOver {body : Bounded Activation Value} {e' : Expr}
    (evaluates : Evaluates mode body ((Chain.eval e').cut n) (ValueRel mode)) :
    Ends mode .passing n body
      ((Chain.eval (.jump mark (.var ccMark continuationParam) [e'] [] none)).cut n) where
  agree := by
    intro world cc frame frame' source target next drive frames machines follows drives
    obtain ⟨enabled, ref, callable, found, holds, resumes⟩ := follows.resumes rfl
    refine Agree.mono ?_ (Bounded.le_refl _) (Bounded.bind_le (Bounded.bodyRun_le
      (Chain.cut_le_of_eq (Chain.eval_jump mark (.var ccMark continuationParam) [e'] [] none n)) _)
      fun _ => Bounded.le_refl _)
    simp only [Chain.cut_bind, Chain.cut_lift]
    refine Agree.bodyRun_bind_right (Agree.evalCc enabled found holds frames machines) ?_
    rintro _ _ _ _ _ ⟨rfl, rfl, rfl, rfl⟩
    simp only [Value.callable, Bounded.lift_pure, pure_bind]
    rw [← bind_pure body]
    refine Agree.bodyRun_bind (evaluates.singleton.agree frames machines) ?_
    rintro later value _ ⟨frame, source⟩ ⟨frame', target⟩ order
      ⟨⟨value', rfl, same⟩, frames, machines⟩
    have keywords_le := Chain.cut_le_of_eq (Chain.keywords_nil .delay n)
    have none_le := Chain.cut_le_of_eq (Chain.evalContinuation_none n)
    refine Agree.mono ?_ (Bounded.le_refl _) (Bounded.bind_le (Bounded.bodyRun_le
      (Bounded.bind_le keywords_le fun _ => Bounded.bind_le none_le fun _ => Bounded.le_refl _) _)
      fun _ => Bounded.le_refl _)
    simp only [pure_bind, Bounded.bodyRun_pure, ← Bounded.within_lift, Bounded.bodyRun_within]
    exact Agree.drive drives machines (resumes.agree order same machines)

end Ends

/-! ## Captures -/

/-- The continuation that a capture makes of the rest of a body. -/
def captured (ref : Nat) (signature : Signature) (body : Expr) (env : Env) (extent : Nat) :
    Callable :=
  .trampolined (.continuation ref ⟨signature, body⟩ env extent false) .strict

/-- Making the closure of a captured rest makes its continuation. -/
theorem makeClosure_captured (continues : ContinuationSignature name signature) (body : Expr)
    (fresh : frame.extent = none) (machine : Machine) :
    makeClosure ⟨signature, body⟩ ⟨frame, machine⟩ =
      some (.ok (.func (captured machine.continuations signature body frame.env
          machine.extents.size)),
        ⟨{ frame with extent := some machine.extents.size },
          { machine with
            extents := machine.extents.push true
            stack := machine.stack.push machine.extents.size
            continuations := machine.continuations + 1
            trace := .captured signature.id :: machine.trace }⟩) := by
  obtain ⟨id, name, params, decorators, ⟨tco, cont, isLazy⟩, kind, wrappers⟩ := signature
  obtain ⟨env, _, extent⟩ := frame
  obtain ⟨_, _, captures, strict⟩ := continues
  simp only at fresh captures strict
  subst fresh captures strict
  rfl

/-- A captured continuation stands for the rest of the source body and what comes after it. -/
theorem Resumes.captured {items : List Expr}
    {extent : Nat} (ends : Ends mode .passing n ((Chain.evalItems items .nil).cut n)
      ((Chain.evalItems items' .nil).cut n))
    (seen : mode.Sees name) (continues : ContinuationSignature name signature)
    (frames : FrameRel mode cc world.cells frame frame')
    (valid : world.extents[extent]? = some true)
    (follows : Follows mode .passing (n + 1) world cc next) :
    Resumes mode n world
      (fun value => ((do
        let ref ← Bounded.lift (Run.within (Run.newCell value))
        Bounded.lift (Body.bindName name ref)
        (Chain.evalItems items .nil).cut n : Bounded Activation Value).bodyRun frame) >>= next)
      (Trampoline.captured ref signature (.seq mark items') frame'.env extent) where
  agree := by
    intro later value value' source target order same machines
    refine Agree.mono ?_ (Bounded.le_refl _) (jumpTo_le _ (Nat.le_add_right n 2))
    refine Agree.land machines ?_
    intro target machines
    have resumed : Run.extentValid extent target = some (.ok true, target) := by
      have less : extent < world.extents.size := (Array.getElem?_eq_some_iff.mp valid).1
      have held : later.extents[extent]? = some true := (order.extents extent less).trans valid
      simp [Run.extentValid, Exec.read, machines.extents, held]
    have fits : resumeValues [name].length [value'] = .ok [value'] := rfl
    refine Agree.mono ?_ (Bounded.le_refl _) (Bounded.bind_le (Chain.cut_le_of_eq
      (Chain.apply_continuation ref ⟨signature, .seq mark items'⟩ frame'.env extent false [value']
        [] n)) fun _ => Bounded.le_refl _)
    simp only [continues.params, fits, bindValues, noKwargs, Chain.cut_bind, Chain.cut_lift,
      Chain.cut_ite, Chain.cut_bodyRun, bind_assoc, Bounded.lift_bind, Bounded.lift_pure, pure_bind]
    refine Agree.step_right resumed ?_
    simp only [Bool.not_true, Bool.false_eq_true, if_false, bind_assoc]
    rw [← Bounded.within_lift, Bounded.bodyRun_within_bind, bind_assoc]
    refine Agree.bind (Agree.newCell same machines) ?_
    rintro latest left right source target order' ⟨paired, machines⟩
    refine Agree.bodyRun_step_left rfl ?_
    refine Agree.mono ?_ (Bounded.le_refl _) (Bounded.bind_le (Bounded.bodyRun_le
      (Chain.cut_le_of_eq (Chain.eval_seq mark items' n)) _) fun _ => Bounded.le_refl _)
    rw [Bounded.bodyRun_inBlock]
    have order := World.le_trans order order'
    have inner := (frames.mono order.cells).bindName seen paired
    exact ends.agree { inner with strict := ⟨inner.strict.1, rfl⟩, extent := rfl } machines
      (follows.mono (Nat.le_refl _) order) (Drives.runJumps (n + 1))

/-- The continuation of a capture belongs to a new extent. -/
theorem Agree.evalCapture (continues : ContinuationSignature name signature) {body : Expr}
    (frames : FrameRel mode cc world.cells frame frame')
    (machines : MachineRel mode world source target) :
    Agree mode world (pure () : Bounded Activation Unit)
      ((Chain.evalForced (.fn mark signature body)).cut n) ⟨frame, source⟩ ⟨frame', target⟩
      fun later _ value first second => later = world.capture ∧ first = ⟨frame, source⟩ ∧
        (∃ ref,
          value = .func (Trampoline.captured ref signature body frame'.env world.extents.size)) ∧
          MachineRel mode later source second.machine := by
  refine Agree.mono ?_ (Bounded.le_refl _) (Chain.cut_le_of_eq (Chain.evalForced_eq _ n))
  rw [Chain.cut_bind]
  refine Agree.mono ?_ (Bounded.le_refl _) (Bounded.bind_le
    (Chain.cut_le_of_eq (Chain.eval_fn mark signature body n)) fun _ => Bounded.le_refl _)
  simp only [Chain.cut_lift, Chain.cut_within]
  refine Agree.step_right (makeClosure_captured continues body frames.extent target) ?_
  refine Agree.earlier ?_ world.le_capture
  refine Agree.mono (Agree.pure ⟨rfl, rfl, ⟨_, by rw [machines.extents]⟩, ?_⟩) (Bounded.le_refl _)
    (Bounded.within_le (force_le (Value.func_settled _) n))
  exact { machines.capture with }

/-- A body up to a capture, and what it leaves to the continuation. -/
theorem Ends.capture (applies : Applies mode n) (lands : Lands mode n) (total : mode.total = true)
    {callMark fnMark seqMark : Mark}
    {items : List Expr} (last last' : Value) (seen : mode.Sees name)
    (continues : ContinuationSignature name signature) (funcs : ExprRel mode func func')
    (values : ExprsRel mode args args') (named : NamedRel mode kwargs kwargs')
    (ends : Ends mode .passing n ((Chain.evalItems items .nil).cut n)
      ((Chain.evalItems items' .nil).cut n)) :
    Ends mode .passing n
      ((Chain.evalItems (.bind mark name (.call callMark func args kwargs) :: items) last).cut n)
      ((Chain.evalItems [.jump mark' func' args' kwargs'
        (some (.fn fnMark signature (.seq seqMark items')))] last').cut n) where
  agree := by
    intro world cc frame frame' source target next drive frames machines follows drives
    obtain ⟨enabled, _⟩ := follows.resumes rfl
    have noFn : ∀ inner signature body,
        Expr.call callMark func args kwargs ≠ .fn inner signature body := fun _ _ _ => nofun
    have bind_le : (Chain.evalItems (.bind mark name (.call callMark func args kwargs) :: items)
        last).cut n ≤ _ := Chain.cut_le_of_eq (Chain.evalItems_cons _ _ _ n)
    refine Agree.mono ?_ (Bounded.bind_le (Bounded.bodyRun_le bind_le _) fun _ => Bounded.le_refl _)
      (Bounded.bind_le (Bounded.bodyRun_le (Chain.evalItems_one_le _ _ n) _)
        fun _ => Bounded.le_refl _)
    rw [Chain.cut_bind]
    refine Agree.mono ?_ (Bounded.bind_le (Bounded.bodyRun_le (Bounded.bind_le
      (Chain.cut_le_of_eq (Chain.eval_bind mark name _ noFn n)) fun _ => Bounded.le_refl _) _)
      fun _ => Bounded.le_refl _) (Bounded.le_refl _)
    rw [Chain.cut_bind, bind_assoc]
    refine Agree.mono ?_ (Bounded.bind_le (Bounded.bodyRun_le (Bounded.bind_le
      (Chain.cut_le_of_eq (Chain.operand_eq .delay _ n)) fun _ => Bounded.le_refl _) _)
      fun _ => Bounded.le_refl _) (Bounded.le_refl _)
    simp only [Chain.cut_bind, Chain.cut_lift, Chain.cut_ite, Chain.cut_pure, bind_assoc, pure_bind]
    refine Agree.bodyRun_step_left (isLazy_eq frames.strict.1) ?_
    simp only [Bool.false_eq_true, if_false]
    refine Agree.callJump applies funcs values named frames machines ?_
    intro later callee callee' args args' kwargs kwargs' frame frame' source target order callees
      values named frames machines
    refine Agree.mono ?_ (Bounded.le_refl _) (Bounded.bind_le (Bounded.bodyRun_le (Bounded.bind_le
      (Chain.cut_le_of_eq (Chain.evalContinuation_some _ n)) fun _ => Bounded.le_refl _) _)
      fun _ => Bounded.le_refl _)
    simp only [Chain.cut_bind, Chain.cut_pure, bind_assoc, pure_bind]
    refine Agree.bodyRun_bind_right (Agree.evalCapture continues frames machines) ?_
    rintro _ _ _ ⟨last, target⟩ order' ⟨rfl, rfl, ⟨ref, rfl⟩, machines⟩
    have follows := follows.mono (Nat.le_refl _) (World.le_trans order order')
    rw [← Bounded.within_lift, Bounded.bodyRun_within]
    exact Agree.drive drives machines (lands.pass (callees.mono order'.cells)
      (values.mono order'.cells) (named.mono order'.cells) machines enabled
      (fun partly => by simp [total] at partly)
      (Resumes.captured ends seen continues (frames.mono order'.cells) later.capture_valid follows))

namespace Ends

variable {how : Treatment}

variable {e e' : Expr} {last last' : Value}

/-- An item, and the rest of a body after it. -/
theorem cons {items items' : List Expr}
    (evaluates : Evaluates mode ((Chain.eval e).cut n) ((Chain.eval e').cut n) (ValueRel mode))
    (ends : ∀ value value', Ends mode how n ((Chain.evalItems items value).cut n)
      ((Chain.evalItems items' value').cut n)) :
    Ends mode how n ((Chain.evalItems (e :: items) last).cut n)
      ((Chain.evalItems (e' :: items') last').cut n) := by
  refine Ends.mono ⟨?_⟩ (Chain.cut_le_of_eq (Chain.evalItems_cons e items last n))
    (Chain.cut_le_of_eq (Chain.evalItems_cons e' items' last' n))
  intro world cc frame frame' source target next drive frames machines follows drives
  simp only [Chain.cut_bind]
  refine Agree.bodyRun_bind (evaluates.agree frames machines) ?_
  rintro later value value' ⟨frame, source⟩ ⟨frame', target⟩ order ⟨_, frames, machines⟩
  exact (ends value value').agree frames machines (follows.mono (Nat.le_refl _) order) drives

/-- An arm of a conditional, and the arms after it. -/
theorem arm {test test' body body' : Expr} {arms arms' : List (Expr × Expr)}
    {alt alt' : Option Expr}
    (tests : Evaluates mode ((Chain.eval test).cut n) ((Chain.eval test').cut n) (ValueRel mode))
    (ends : Ends mode how n ((Chain.eval body).cut n) ((Chain.eval body').cut n))
    (others : Ends mode how n ((Chain.evalArms arms alt).cut n)
      ((Chain.evalArms arms' alt').cut n)) :
    Ends mode how n ((Chain.evalArms ((test, body) :: arms) alt).cut n)
      ((Chain.evalArms ((test', body') :: arms') alt').cut n) := by
  refine Ends.mono ⟨?_⟩ (Chain.cut_le_of_eq (Chain.evalArms_cons test body arms alt n))
    (Chain.cut_le_of_eq (Chain.evalArms_cons test' body' arms' alt' n))
  intro world cc frame frame' source target next drive frames machines follows drives
  simp only [Chain.cut_bind, Chain.cut_ite]
  refine Agree.bodyRun_bind (tests.forced.agree frames machines) ?_
  rintro later value value' ⟨frame, source⟩ ⟨frame', target⟩ order ⟨same, frames, machines⟩
  have follows := follows.mono (Nat.le_refl _) order
  rw [same.truthy_eq]
  by_cases holds : value.truthy = true
  · rw [if_pos holds, if_pos holds]
    exact ends.agree frames machines follows drives
  · rw [if_neg holds, if_neg holds]
    exact others.agree frames machines follows drives

/-- An operand of a connective that may stop there, and the operands after it. -/
theorem operand (may : mode.MayReturn how) (op : Connective) {es es' : List Expr}
    (evaluates : Evaluates mode ((Chain.eval e).cut n) ((Chain.eval e').cut n) (ValueRel mode))
    (ends : ∀ value value', Ends mode how n ((Chain.evalShort op es value).cut n)
      ((Chain.evalShort op es' value').cut n)) :
    Ends mode how n ((Chain.evalShort op (e :: es) last).cut n)
      ((Chain.evalShort op (e' :: es') last').cut n) := by
  refine Ends.mono ⟨?_⟩ (Chain.cut_le_of_eq (Chain.evalShort_cons op e es last n))
    (Chain.cut_le_of_eq (Chain.evalShort_cons op e' es' last' n))
  intro world cc frame frame' source target next drive frames machines follows drives
  simp only [Chain.cut_bind, Chain.cut_ite, Chain.cut_pure]
  refine Agree.bodyRun_bind (evaluates.forced.agree frames machines) ?_
  rintro later value value' ⟨frame, source⟩ ⟨frame', target⟩ order ⟨same, frames, machines⟩
  rw [same.truthy_eq]
  by_cases stops : (value.truthy = true) = (op = .or)
  · rw [if_pos stops, if_pos stops, Bounded.bodyRun_pure, Bounded.bodyRun_pure, pure_bind,
      pure_bind]
    exact (Agree.pure ⟨same, machines⟩).mono (follows.returns may value same.settled.1)
      (drives.value value' same.settled.2)
  · rw [if_neg stops, if_neg stops]
    exact (ends value value').agree frames machines (follows.mono (Nat.le_refl _) order) drives

/-- An empty body, whose value nil is handed over. -/
theorem nil {jumpMark ccMark litMark : Mark} :
    Ends mode .passing n ((Chain.evalItems [] .nil).cut n) ((Chain.evalItems
      [.jump jumpMark (.var ccMark continuationParam) [.lit litMark .nil] [] none] last).cut
        n) := by
  refine Ends.mono (Ends.handOver ⟨?_⟩)
    (Chain.cut_le_of_eq (Chain.evalItems_nil .nil n)) (Chain.evalItems_one_le _ _ n)
  intro world cc source target frames machines
  exact Agree.mono (Agree.pure ⟨.nil, frames, machines⟩) (Bounded.le_refl _)
    (Chain.cut_le_of_eq (Chain.eval_lit litMark .nil n))

/-- A conditional of which no test holds. -/
theorem noArm (may : mode.MayReturn how) :
    Ends mode how n ((Chain.evalArms [] none).cut n) ((Chain.evalArms [] none).cut n) := by
  refine Ends.mono (.keep may ⟨?_⟩) (Chain.cut_le_of_eq (Chain.evalArms_nil_none n))
    (Chain.cut_le_of_eq (Chain.evalArms_nil_none n))
  intro world cc source target frames machines
  exact Agree.pure ⟨.nil, frames, machines⟩

end Ends

/-- What comes last is at least one expression. -/
theorem LastRel.length_ne {e : Expr} {es es' : List Expr}
    (related : LastRel mode how es es') : (e :: es).length ≠ 1 := by
  cases related <;> simp

mutual

/-- Related ends of bodies agree with what comes after them, case by case. -/
theorem TailRel.ends (applies : Applies mode n) (lands : Lands mode n) :
    ∀ {how : Treatment} {e e' : Expr}, TailRel mode how e e' ->
      Ends mode how n ((Chain.eval e).cut n) ((Chain.eval e').cut n)
  | _, _, _, .keep may same => .keep may (same.evaluates applies)
  | _, _, _, .defer funcs values named =>
    .defer applies lands (mode.mayReturn_of_ne Treatment.noConfusion) funcs values named
  | _, _, _, .pass funcs values named => .pass applies lands funcs values named
  | _, _, _, .handOver same => .handOver (same.evaluates applies)
  | _, _, _, .handOverNil =>
    Ends.mono Ends.nil.inBlock (Chain.cut_le_of_eq (Chain.eval_seq _ _ n))
      (Chain.cut_le_of_eq (Chain.eval_seq _ _ n))
  | _, _, _, .condNone may same =>
    Ends.mono (TailArmsRel.ends applies lands (.noArm may) same)
      (Chain.cut_le_of_eq (Chain.eval_cond _ _ _ n))
      (Chain.cut_le_of_eq (Chain.eval_cond _ _ _ n))
  | _, _, _, .condSome same other =>
    have others := Ends.mono (TailRel.ends applies lands other)
      (Chain.cut_le_of_eq (Chain.evalArms_nil_some _ n))
      (Chain.cut_le_of_eq (Chain.evalArms_nil_some _ n))
    Ends.mono (TailArmsRel.ends applies lands others same)
      (Chain.cut_le_of_eq (Chain.eval_cond _ _ _ n))
      (Chain.cut_le_of_eq (Chain.eval_cond _ _ _ n))
  | _, _, _, .short may same =>
    Ends.mono (LastRel.short applies lands same may)
      (Chain.cut_le_of_eq (Chain.eval_short _ _ _ n))
      (Chain.cut_le_of_eq (Chain.eval_short _ _ _ n))
  | _, _, _, .seq same =>
    Ends.mono (LastRel.items applies lands same).inBlock
      (Chain.cut_le_of_eq (Chain.eval_seq _ _ n))
      (Chain.cut_le_of_eq (Chain.eval_seq _ _ n))

theorem LastRel.items (applies : Applies mode n) (lands : Lands mode n) :
    ∀ {how : Treatment} {es es' : List Expr}, LastRel mode how es es' -> ∀ {last last' : Value},
      Ends mode how n ((Chain.evalItems es last).cut n) ((Chain.evalItems es' last').cut n)
  | _, _, _, .one same, _, _ =>
    (TailRel.ends applies lands same).mono (Chain.evalItems_one_le _ _ n)
      (Chain.evalItems_one_le _ _ n)
  | _, _, _, .cons first rest, _, _ =>
    .cons (first.evaluates applies) fun _ _ => LastRel.items applies lands rest

theorem LastRel.short (applies : Applies mode n) (lands : Lands mode n) {op : Connective} :
    ∀ {how : Treatment} {es es' : List Expr}, LastRel mode how es es' ->
      mode.MayReturn how ∨ es.length = 1 -> ∀ {last last' : Value},
        Ends mode how n ((Chain.evalShort op es last).cut n) ((Chain.evalShort op es' last').cut n)
  | _, _, _, .one same, _, _, _ =>
    (TailRel.ends applies lands same).forced.mono (Chain.evalShort_one_le _ _ _ n)
      (Chain.evalShort_one_le _ _ _ n)
  | how, _, _, .cons first rest, may, _, _ =>
    have may : mode.MayReturn how := may.resolve_right rest.length_ne
    .operand may op (first.evaluates applies) fun _ _ => LastRel.short applies lands rest (.inl may)

theorem TailArmsRel.ends (applies : Applies mode n) (lands : Lands mode n)
    {alt alt' : Option Expr} :
    ∀ {how : Treatment} {arms arms' : List (Expr × Expr)},
      Ends mode how n ((Chain.evalArms [] alt).cut n) ((Chain.evalArms [] alt').cut n) ->
      TailArmsRel mode how arms arms' ->
        Ends mode how n ((Chain.evalArms arms alt).cut n) ((Chain.evalArms arms' alt').cut n)
  | _, _, _, others, .nil => others
  | _, _, _, others, .cons tests bodies rest =>
    .arm (tests.evaluates applies) (TailRel.ends applies lands bodies)
      (TailArmsRel.ends applies lands others rest)

end

/-- The items of a body end as the items up to the first capture do. -/
theorem CutRel.ends (applies : Applies mode n) (lands : Lands mode n) :
    ∀ {items items' : List Expr}, CutRel mode items items' -> ∀ {last last' : Value},
      (items = [] -> last = .nil) -> Ends mode .passing n ((Chain.evalItems items last).cut n)
        ((Chain.evalItems items' last').cut n)
  | _, _, .nil, _, _, empty => empty rfl ▸ .nil
  | _, _, .one same, _, _, _ =>
    (same.ends applies lands).mono (Chain.evalItems_one_le _ _ n) (Chain.evalItems_one_le _ _ n)
  | _, _, .cons first more rest, _, _, _ =>
    .cons (first.evaluates applies) fun _ _ => CutRel.ends applies lands rest fun none =>
      absurd none more
  | _, _, .capture total seen continues funcs values named rest, last, last', _ =>
    .capture applies lands total last last' seen continues funcs values named
      (CutRel.ends applies lands rest fun _ => rfl)

end Trampoline
