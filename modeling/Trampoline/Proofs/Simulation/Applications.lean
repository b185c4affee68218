import Trampoline.Proofs.Simulation.Calls
import Trampoline.Proofs.Simulation.Tails

/-!
# Functions applied

Functions agree with those in their place when they are applied, and when they are jumped to. The
proof is by induction on fuel: a function with a unit of fuel more runs its body with what is left,
and bodies agree if applications and jumps in them do.
-/

namespace Trampoline

variable {mode : Rewriting} {n : Nat} {world : World} {source target : Machine}
  {next drive : Value -> Bounded Machine Value}

/-! ## What runs jumps -/

/-- Guarding a value that is there already does nothing but spend fuel. -/
theorem Bounded.guarded_pure_le (value : Value) :
    (pure value : Bounded Machine Value).guarded ≤ pure value := by
  refine Bounded.le_of_eq (Bounded.ext (funext fun machine => ?_) (funext fun machine => ?_)) <;>
  · show some (Except.ok value, machine.unwindTo machine.stack.size) = some (.ok value, machine)
    simp [Machine.unwindTo]

/-- A trampoline around a body. -/
theorem Drives.trampoline (n : Nat) :
    Drives (n + 1) fun value => (Chain.trampoline .strict value).cut n where
  jump := .inr fun ref =>
    Bounded.le_trans (Chain.cut_le _ (Nat.le_add_right n 2))
      (Bounded.le_of_eq (Chain.trampoline_eq .strict (.jump ref) (n + 1)))
  value := by
    intro value settled
    refine Bounded.le_trans (Chain.cut_le _ (Nat.le_add_right n 2)) ?_
    rw [Chain.trampoline_eq, Chain.runJumps_value .strict value settled.1]
    exact Bounded.guarded_pure_le value

theorem Returns.pure : Returns pure :=
  fun _ _ => Bounded.le_refl _

variable {first : Bounded Machine Value} {how : Treatment} {signature signature' : Signature}
  {ref ref' : Nat} {function function' : Function} {env env' : Env} {args args' : List Value}
  {kwargs kwargs' : Kwargs} {cont callable callable' : Callable} {cells : Pairing}

/-- Values come out of what runs jumps as they are. -/
theorem Agree.return {second : Bounded Machine Value}
    (agree : Agree mode world first second source target (Gives mode (ValueRel mode)))
    (returns : Returns next) (drives : Drives n drive) :
    Agree mode world (first >>= next) (second >>= drive) source target
      (Gives mode (ValueRel mode)) := by
  refine Agree.bind agree ?_
  rintro later value value' source target _ ⟨same, machines⟩
  exact (Agree.pure ⟨same, machines⟩).mono (returns value same.settled.1)
    (drives.value value' same.settled.2)

/-- Jumping to the identity continuation agrees with going on if that does nothing. -/
theorem Resumes.identity (returns : Returns next) (ref : Nat) (n : Nat) :
    Resumes mode n world next (.identity ref) where
  agree := by
    intro later value value' source target _ same machines
    refine Agree.mono ?_ (returns value same.settled.1) (jumpTo_le _ (Nat.le_add_right n 2))
    refine Agree.land machines ?_
    intro target machines
    have applied := Chain.cut_le_of_eq (Chain.apply_identity ref [value'] [] n)
    refine Agree.mono ?_ (Bounded.le_refl _) (Bounded.bind_le applied fun _ => Bounded.le_refl _)
    simp only [noKwargs, Value.pack, Chain.cut_bind, Chain.cut_lift, Chain.cut_pure,
      Bounded.lift_pure, pure_bind]
    exact (Agree.pure ⟨same, machines⟩).mono (Bounded.le_refl _)
      ((Drives.runJumps (n + 1)).value value' same.settled.2)

/-! ## Bodies -/

/-- Related bodies agree with what comes after them, whatever the treatment. -/
theorem BodyRel.ends (applies : Applies mode n) (lands : Lands mode n)
    {body body' : Expr} (related : BodyRel mode how body body') :
    Ends mode how n ((Chain.eval body).cut n) ((Chain.eval body').cut n) := by
  cases related with
  | kept same => exact .keep (mode.mayReturn_of_ne Treatment.noConfusion) (same.evaluates applies)
  | deferring same => exact same.ends applies lands
  | passing same =>
    have items : Ends mode .passing n _ ((Chain.evalItems _ .nil).cut n) :=
      same.ends applies lands fun _ => rfl
    exact items.inBlock.mono (Chain.cut_le_of_eq (Chain.eval_seq _ _ n))
      (Chain.cut_le_of_eq (Chain.eval_seq _ _ n))

/-- In this comparison no function is lazy. -/
theorem SignatureRel.isLazy_eq (dressed : mode.dressed = true)
    (same : SignatureRel mode how signature signature') :
    signature.isLazy = false ∧ signature'.isLazy = false := by
  constructor
  · simp [Signature.isLazy, same.strict.1, same.bare]
  · cases how <;> simp [Signature.isLazy, same.strict.2, same.wrappers dressed, Treatment.wrappers]

/-- Functions with related signatures begin in related frames. -/
theorem SignatureRel.frames (dressed : mode.dressed = true) {cc : Option Nat}
    (same : SignatureRel mode how signature signature') {scope scope' : Env}
    (scopes : EnvRel mode world.cells scope scope')
    (found : mode.passing = true -> scope'.lookup continuationParam = cc) :
    FrameRel mode cc world.cells ⟨scope, signature.isLazy, none⟩
      ⟨scope', signature'.isLazy, none⟩ :=
  ⟨scopes, same.isLazy_eq dressed, rfl, found⟩

/-- A function that takes no continuation is applied. -/
theorem Agree.applyPlain (applies : Applies mode n) (lands : Lands mode n)
    (takes : how ≠ .passing) (same : FunctionRel mode how function function')
    (closed : EnvRel mode world.cells env env') (values : ValuesRel mode world.cells args args')
    (named : KwargsRel mode world.cells kwargs kwargs')
    (machines : MachineRel mode world source target) (returns : Returns next)
    (drives : Drives (n + 1) drive) :
    Agree mode world ((Chain.apply (.closure ref function env) args kwargs).cut (n + 1) >>= next)
      ((Chain.apply (.closure ref' function' env') args' kwargs').cut (n + 1) >>= drive) source
      target (Gives mode (ValueRel mode)) := by
  rw [Chain.apply_closure, Chain.apply_closure]
  simp only [Chain.cut_bind, Chain.cut_lift, Chain.cut_bodyRun, bind_assoc]
  refine Agree.bind (Agree.scope takes same.signature closed values named machines) ?_
  rintro later scope scope' source target _ ⟨scopes, machines⟩
  exact (same.body.ends applies lands).agree
    (same.signature.frames applies.dressed scopes fun _ => rfl) machines
    ⟨fun _ => returns, fun passing => absurd passing takes⟩ drives

/-- A function that takes a continuation is applied with one. -/
theorem Agree.applyPassing (applies : Applies mode n) (lands : Lands mode n)
    (same : FunctionRel mode .passing function function')
    (closed : EnvRel mode world.cells env env') (values : ValuesRel mode world.cells args args')
    (named : KwargsRel mode world.cells kwargs kwargs')
    (machines : MachineRel mode world source target)
    (returns : mode.total = false -> Returns next)
    (resumes : Resumes mode (n + 1) world next cont) (drives : Drives (n + 1) drive) :
    Agree mode world ((Chain.apply (.closure ref function env) args kwargs).cut (n + 1) >>= next)
      ((Chain.apply (.closure ref' function' env') args'
        (kwargs' ++ [(continuationParam, .func cont)])).cut (n + 1) >>= drive) source
      target (Gives mode (ValueRel mode)) := by
  have enabled := same.signature.passing rfl
  rw [Chain.apply_closure, Chain.apply_closure]
  simp only [Chain.cut_bind, Chain.cut_lift, Chain.cut_bodyRun, bind_assoc]
  refine Agree.bind (Agree.scope_passing same.signature closed values named cont machines) ?_
  rintro later scope scope' source target order ⟨scopes, ⟨cell, found, holds⟩, machines⟩
  have frames := same.signature.frames applies.dressed scopes fun _ => found
  refine (same.body.ends applies lands).agree frames machines
    ⟨fun may => returns (may rfl), ?_⟩ drives
  exact fun _ => ⟨enabled, cell, cont, rfl, holds, resumes.mono (Nat.le_refl _) order⟩

/-! ## Continuations among keyword arguments -/

/-- Where continuations are passed, no program names their keyword. -/
theorem KwargsRel.noCc (passing : mode.passing = true)
    (named : KwargsRel mode cells kwargs kwargs') : ∀ kwarg ∈ kwargs', isCc kwarg = false := by
  induction named with
  | nil => simp
  | cons seen _ _ ih => simpa [isCc, seen passing] using ih

theorem KwargsRel.replaceCc (passing : mode.passing = true)
    (named : KwargsRel mode cells kwargs kwargs') (cc : Value) :
    Trampoline.replaceCc kwargs' cc = kwargs' ++ [(continuationParam, cc)] := by
  have kept : kwargs'.filter (fun kwarg => !isCc kwarg) = kwargs' :=
    List.filter_eq_self.mpr fun kwarg member => by simp [named.noCc passing kwarg member]
  rw [Trampoline.replaceCc, kept]

theorem any_isCc (kwargs : Kwargs) (cc : Value) :
    (kwargs ++ [(continuationParam, cc)]).any isCc = true := by
  simp [isCc]

/-- Without a continuation, a function that takes one gets the identity continuation. -/
theorem Agree.applyContEnabled (passing : mode.passing = true) {inner : Callable}
    (named : KwargsRel mode world.cells kwargs kwargs')
    (machines : MachineRel mode world source target)
    (agree : ∀ {target : Machine} (ref : Nat), MachineRel mode world source target ->
      Agree mode world first ((Chain.apply inner args'
        (kwargs' ++ [(continuationParam, .func (.identity ref))])).cut n >>= drive) source target
        (Gives mode (ValueRel mode))) :
    Agree mode world first ((Chain.apply (.contEnabled inner) args' kwargs').cut (n + 1) >>= drive)
      source target (Gives mode (ValueRel mode)) := by
  have absent : ¬ kwargs'.any isCc = true := by
    simpa using named.noCc passing
  rw [Chain.apply_contEnabled, if_neg absent, Chain.cut_bind, Chain.cut_lift, bind_assoc]
  exact Agree.step_right rfl (agree target.identities { machines with })

/-! ## Levels -/

theorem Applies.zero (dressed : mode.dressed = true) : Applies mode 0 :=
  ⟨dressed, fun _ _ _ _ => Agree.zero rfl rfl⟩

protected theorem Agree.noKwargs (func : String) (named : KwargsRel mode world.cells kwargs kwargs')
    (machines : MachineRel mode world source target) :
    Agree mode world (.lift (noKwargs func kwargs)) (.lift (noKwargs func kwargs')) source target
      (Gives mode Equal) := by
  cases named with
  | nil => exact Agree.pure ⟨rfl, machines⟩
  | cons _ _ _ => exact Agree.fail _ machines

/-- Functions agree when applied with a unit of fuel more. -/
theorem Applies.succ (applies : Applies mode n) (lands : Lands mode n) : Applies mode (n + 1) where
  dressed := applies.dressed
  agree := by
    intro world callable callable' args args' kwargs kwargs' source target callees values named
      machines
    cases callees with
    | @native op =>
      rw [Chain.apply_native, Chain.apply_native]
      simp only [Chain.cut_bind, Chain.cut_lift, values.length_eq]
      refine Agree.bind (Agree.noKwargs op.name named machines) ?_
      rintro later _ _ source target grown ⟨_, machines⟩
      have native := Agree.applyNative applies op (values.mono grown.cells) machines
      cases op.arity with
      | none => exact native
      | some expected =>
        simp only [Chain.cut_ite, Chain.cut_lift]
        by_cases fits : args.length = expected
        · simpa only [if_pos fits] using native
        · simpa only [if_neg fits] using Agree.fail _ machines
    | identity partly =>
      rw [Chain.apply_identity, Chain.apply_identity]
      simp only [Chain.cut_bind, Chain.cut_lift, Chain.cut_pure]
      refine Agree.bind (Agree.noKwargs "identity" named machines) ?_
      rintro later _ _ source target grown ⟨_, machines⟩
      exact Agree.pure ⟨.pack (values.mono grown.cells), machines⟩
    | @closure how ref function function' env env' same closed =>
      rw [← bind_pure ((Chain.apply (.closure ref function env) args kwargs).cut (n + 1))]
      cases how with
      | kept =>
        simp only [Treatment.dress]
        rw [Chain.apply_closure, Chain.apply_closure]
        simp only [Chain.cut_bind, Chain.cut_lift, Chain.cut_bodyRun, bind_pure]
        refine Agree.bind (Agree.scope Treatment.noConfusion same.signature closed values named
          machines) ?_
        rintro later scope scope' source target _ ⟨scopes, machines⟩
        obtain ⟨signature, body⟩ := same
        cases body with
        | kept body =>
          exact Agree.bodyRun ((body.evaluates applies).agree
            (signature.frames applies.dressed scopes fun _ => rfl) machines) fun _ _ _ _ _ holds =>
              ⟨holds.1, holds.2.2⟩
      | deferring =>
        simp only [Treatment.dress]
        rw [Chain.apply_trampolined, Chain.cut_bind]
        refine Agree.mono ?_ (Bounded.le_refl _)
          (Bounded.bind_le (Chain.cut_le _ (Nat.le_succ n)) fun _ => Bounded.le_refl _)
        exact Agree.applyPlain applies lands Treatment.noConfusion same closed values named
          machines .pure (Drives.trampoline n)
      | passing =>
        simp only [Treatment.dress]
        rw [Chain.apply_trampolined, Chain.cut_bind]
        refine Agree.mono ?_ (Bounded.le_refl _)
          (Bounded.bind_le (Chain.cut_le _ (Nat.le_add_right n 2)) fun _ => Bounded.le_refl _)
        refine Agree.applyContEnabled (same.signature.passing rfl) named machines ?_
        intro target ref machines
        exact Agree.applyPassing applies lands same closed values named machines
          (fun _ => Returns.pure) (.identity .pure ref _) (Drives.trampoline n)

theorem Lands.zero : Lands mode 0 where
  call := by
    intro world callable callable' args args' kwargs kwargs' source target next _ _ _ _ _
    exact Agree.zero rfl rfl
  pass := by
    intro world callable callable' cont args args' kwargs kwargs' source target next _ _ _ _ _ _ _
    exact Agree.zero rfl rfl

/-- Jumps to functions agree with calls, with a unit of fuel more. -/
theorem Lands.call_succ (applies : Applies mode n) (lands : Lands mode n)
    (callees : CallableRel mode world.cells callable callable')
    (values : ValuesRel mode world.cells args args')
    (named : KwargsRel mode world.cells kwargs kwargs')
    (machines : MachineRel mode world source target) (returns : Returns next) :
    Agree mode world ((Chain.apply callable args kwargs).cut (n + 1) >>= next)
      (jumpTo ⟨callable', args', kwargs', none⟩ (n + 2)) source target
      (Gives mode (ValueRel mode)) := by
  refine Agree.land machines ?_
  intro target machines
  have drives := Drives.runJumps (n + 1)
  have plain := Agree.return ((applies.succ lands).agree callees values named machines) returns
    drives
  have lower (callee : Callable) (k : Nat) :
      ((Chain.apply callee args' kwargs').cut n >>= fun value =>
        (Chain.runJumps .strict value).cut (n + 1)) ≤
      ((Chain.apply callee args' kwargs').cut (n + k) >>= fun value =>
        (Chain.runJumps .strict value).cut (n + 1)) :=
    Bounded.bind_le (Chain.cut_le _ (Nat.le_add_right n k)) fun _ => Bounded.le_refl _
  cases callees with
  | native => exact plain.mono (Bounded.le_refl _) (lower _ 1)
  | identity => exact plain.mono (Bounded.le_refl _) (lower _ 1)
  | @closure how ref function function' env env' same closed =>
    cases how with
    | kept => exact plain.mono (Bounded.le_refl _) (lower _ 1)
    | deferring =>
      refine Agree.mono ?_ (Bounded.le_refl _) (lower (.closure ref function' env') 1)
      exact Agree.applyPlain applies lands Treatment.noConfusion same closed values named machines
        returns drives
    | passing =>
      refine Agree.mono ?_ (Bounded.le_refl _)
        (lower (.contEnabled (.closure ref function' env')) 2)
      refine Agree.applyContEnabled (same.signature.passing rfl) named machines ?_
      intro target fresh machines
      exact Agree.applyPassing applies lands same closed values named machines (fun _ => returns)
        (.identity returns fresh _) drives

/-- A function that takes no continuation is called, and its value is then given to it. -/
theorem Agree.callThenJump (applies : Applies mode n)
    (callees : CallableRel mode world.cells callable callable')
    (values : ValuesRel mode world.cells args args')
    (named : KwargsRel mode world.cells kwargs kwargs')
    (machines : MachineRel mode world source target) (resumes : Resumes mode n world next cont) :
    Agree mode world ((Chain.apply callable args kwargs).cut n >>= next)
      ((Chain.call callable' args' kwargs').cut n >>= fun result =>
        jumpTo ⟨cont, [result], [], none⟩ n) source target (Gives mode (ValueRel mode)) := by
  have called := Agree.call_right applies callees values named machines
  refine Agree.bind called ?_
  rintro later value value' source target order ⟨same, machines⟩
  exact resumes.agree order same machines

/-- What takes no continuation and is none is called, and the continuation gets the result. -/
theorem landing_call (takes : callable.underTrampoline.acceptsCc = false)
    (plain : callable.underTrampoline.isContinuation = false) (n : Nat) :
    ((Chain.landing ⟨callable, args, kwargs, some (.func cont)⟩).cut n >>= fun value =>
      (Chain.runJumps .strict value).cut (n + 1)) =
    (Chain.call callable args kwargs).cut n >>= fun result =>
      jumpTo ⟨cont, [result], [], none⟩ (n + 1) := by
  simp only [Chain.landing, takes, plain, Bool.false_eq_true, if_false, Chain.cut_bind,
    Chain.cut_lift, bind_assoc, Value.callable, Bounded.lift_pure, pure_bind, jumpTo]

/-- A function that takes a continuation is jumped to with one, with a unit of fuel more. -/
theorem Lands.pass_succ (applies : Applies mode n) (lands : Lands mode n)
    (callees : CallableRel mode world.cells callable callable')
    (values : ValuesRel mode world.cells args args')
    (named : KwargsRel mode world.cells kwargs kwargs')
    (machines : MachineRel mode world source target) (passing : mode.passing = true)
    (returns : mode.total = false -> Returns next)
    (resumes : Resumes mode (n + 1) world next cont) :
    Agree mode world ((Chain.apply callable args kwargs).cut (n + 1) >>= next)
      (jumpTo ⟨callable', args', kwargs', some (.func cont)⟩ (n + 2)) source target
      (Gives mode (ValueRel mode)) := by
  refine Agree.land machines ?_
  intro target machines
  have drives := Drives.runJumps (n + 1)
  have called := Agree.callThenJump (applies.succ lands) callees values named machines resumes
  have lower (callee : Callable) (k : Nat) (kwargs' : Kwargs) :
      ((Chain.apply callee args' kwargs').cut n >>= fun value =>
        (Chain.runJumps .strict value).cut (n + 1)) ≤
      ((Chain.apply callee args' kwargs').cut (n + k) >>= fun value =>
        (Chain.runJumps .strict value).cut (n + 1)) :=
    Bounded.bind_le (Chain.cut_le _ (Nat.le_add_right n k)) fun _ => Bounded.le_refl _
  have called_le : ((Chain.call callable' args' kwargs').cut n >>= fun result =>
        jumpTo ⟨cont, [result], [], none⟩ (n + 1)) ≤
      ((Chain.call callable' args' kwargs').cut (n + 1) >>= fun result =>
        jumpTo ⟨cont, [result], [], none⟩ (n + 1)) :=
    Bounded.bind_le (Chain.cut_le _ (Nat.le_succ n)) fun _ => Bounded.le_refl _
  cases callees with
  | native =>
    rw [landing_call rfl rfl]
    exact called.mono (Bounded.le_refl _) called_le
  | identity partly =>
    refine Agree.mono ?_ (Bounded.le_refl _) (lower (.identity 0) 1 kwargs')
    exact Agree.return ((applies.succ lands).agree (.identity partly) values named machines)
      (returns partly) drives
  | @closure how ref function function' env env' same closed =>
    cases how with
    | kept =>
      rw [landing_call rfl rfl]
      exact called.mono (Bounded.le_refl _) called_le
    | deferring =>
      rw [landing_call rfl rfl]
      exact called.mono (Bounded.le_refl _) called_le
    | passing =>
      simp only [Treatment.dress, Chain.landing, Callable.underTrampoline, Callable.acceptsCc,
        if_true, named.replaceCc passing]
      refine Agree.mono ?_ (Bounded.le_refl _) (lower _ 2 _)
      rw [Chain.apply_contEnabled, if_pos (any_isCc kwargs' (.func cont))]
      exact Agree.applyPassing applies lands same closed values named machines returns resumes
        drives

/-- Functions agree with those in their place, however much fuel there is. -/
theorem levels (dressed : mode.dressed = true) (n : Nat) : Applies mode n ∧ Lands mode n := by
  induction n with
  | zero => exact ⟨.zero dressed, .zero⟩
  | succ n ih =>
    obtain ⟨applies, lands⟩ := ih
    refine ⟨applies.succ lands, ⟨?_, ?_⟩⟩
    · intro world callable callable' args args' kwargs kwargs' source target next callees values
        named machines returns
      exact Lands.call_succ applies lands callees values named machines returns
    · intro world callable callable' cont args args' kwargs kwargs' source target next callees
        values named machines passing returns resumes
      exact Lands.pass_succ applies lands callees values named machines passing returns resumes

end Trampoline
