import Trampoline.Proofs.Need.Steps

/-!
# Applying functions

A function that is applied to values, or to what its operands are bound to by name, runs in scopes
that stand for each other.
-/

namespace Trampoline.ByName

open Exec

variable {dressed : Bool} {globals : List (String × Val)} {blocked : Entry -> Prop}
  {reading more : Reading} {m m' : Machine} {path : Path}
  {perform : (task : Task) -> Run task.Answer} {refer : (query : Query) -> Option query.Answer}
  {args : List Value} {entries : List Entry} {kwargs : Kwargs} {named : Bindings}

/-- The wrapper of lazy functions changes nothing about how their bodies run. -/
theorem isLazy_wrappersOf (signature : Signature) :
    ({ signature with wrappers := wrappersOf dressed signature } : Signature).isLazy =
      signature.regions.lazy := by
  unfold Signature.isLazy wrappersOf
  split
  · next takes => simp_all
  · simp

/-- An entry that is a value is no thunk. -/
theorem isThunk_of_value {entry : Entry} (value : ∃ val, entry = .value val) :
    entry.isThunk = false := by
  obtain ⟨val, rfl⟩ := value
  rfl

/-- Bodies of functions follow each other. -/
theorem Simulates.closure_step (sim : Simulates dressed globals blocked perform refer)
    (opens : Opens dressed globals blocked reading m path) (ref : Nat) {function other : Function}
    {env : Env} {names : Bindings} (made : Path) (becomes : Becomes dressed function other)
    (stands : Stands reading env names) (fits : Fits function names)
    (hold : HoldAll dressed globals reading args entries)
    (hold' : HoldNamed dressed globals reading kwargs named)
    (strict : function.signature.regions.lazy = false ->
      (∀ entry ∈ entries, ∃ val, entry = .value val) ∧
        ∀ bound ∈ named, ∃ val, bound.2 = .value val) :
    Follows dressed m ((Task.apply (.closure ref other env) args kwargs).plan.run perform)
      (((Query.apply (.closure made function names) entries named path).course globals).run refer)
      (Gives dressed globals (Apart path) reading m (Means dressed)) := by
  obtain ⟨body, mapping, rfl⟩ := becomes
  show Follows _ _ _ ((Course.ofOption (parameters function.signature names entries named) >>= _ :
    Course Val).run refer) _
  rw [Course.run_bind, Course.run_ofOption]
  let signature := { function.signature with wrappers := wrappersOf dressed function.signature }
  have scopes : Follows dressed m (parameterScope signature env args kwargs)
      (parameters function.signature names entries named)
      (Gives dressed globals (fun _ => True) reading m Stands) :=
    opens.agrees.parameters_follows rfl stands hold hold'
  refine scopes.answered.bind ?_
  rintro env' names' m' ⟨⟨more, moves, agrees, stands'⟩, found⟩
  have frames : Frames more ⟨env', signature.isLazy, none⟩
      ⟨names', function.signature.regions.lazy⟩ := by
    refine ⟨stands', isLazy_wrappersOf _, fun isStrict => ?_⟩
    obtain ⟨plain, plain'⟩ := strict isStrict
    exact parameters_settled (fits.settled isStrict)
      (fun entry member => isThunk_of_value (plain entry member))
      (fun bound member => isThunk_of_value (plain' bound member)) found
  have opens' : Opens dressed globals blocked more m' path :=
    ⟨⟨agrees, opens.ready.move moves⟩, moves.free path trivial opens.free⟩
  have follows := sim.eval opens' mapping fits.suits fits.body frames
  show Follows _ _ _ ((Course.sub (.eval _ _ path)).run refer) _
  rw [Course.run_sub]
  refine follows.mapRun ?_
  rintro ⟨value, _⟩ val m'' ⟨further, moves', agrees', means, -⟩
  exact ⟨further, (moves.trans moves').weaken fun _ apart => ⟨trivial, apart⟩, agrees', means⟩

/-- Natives take values by position. -/
theorem HoldNamed.nil_or (hold : HoldNamed dressed globals reading kwargs named) (func : String) :
    (kwargs = [] ∧ named = []) ∨ (∃ error, noKwargs func kwargs = fail error) ∧
      ∃ bound rest, named = bound :: rest := by
  cases hold with
  | nil => exact .inl ⟨rfl, rfl⟩
  | cons => exact .inr ⟨⟨_, rfl⟩, _, _, rfl⟩

/-- A native without effects is applied as its function by name. -/
theorem Setting.native_step (setting : Setting dressed globals perform refer)
    (agrees : Agrees dressed globals reading m) {op : Native} (plain : op.isPure = true)
    (hold : HoldAll dressed globals reading args entries)
    (hold' : HoldNamed dressed globals reading kwargs named)
    (values : ∀ entry ∈ entries, ∃ val, entry = .value val) :
    Follows dressed m ((Task.apply (.native op) args kwargs).plan.run perform)
      (((Query.apply (.native op) entries named path).course globals).run refer)
      (Gives dressed globals (Apart path) reading m (Means dressed)) := by
  rcases hold'.nil_or op.name with ⟨rfl, rfl⟩ | ⟨⟨error, fails⟩, bound, rest, rfl⟩
  · refine .step rfl ?_
    obtain ⟨vals, all, means⟩ := hold.values values
    show Follows _ _ _ ((Course.ofOption (entries.mapM Entry.value?) >>= fun values =>
      Course.ofOption (applyNative op values)).run refer) _
    rw [Course.run_bind, Course.run_ofOption, all]
    show Follows _ _ _ ((Course.ofOption (applyNative op vals)).run refer) _
    rw [Course.run_ofOption, applyNative]
    cases op.arity with
    | none =>
      show Follows _ _ ((Plan.sub (.applyNative op args)).run perform) _ _
      rw [Plan.run_sub]
      exact setting.below (agrees.applyNative_follows means plain)
    | some expected =>
      show Follows _ _ ((if args.length = expected then Plan.sub (.applyNative op args)
        else Plan.lift (fail _)).run perform) _ _
      rw [Plan.run_ite, means.length_eq]
      refine .ite (fun _ => ?_) fun _ => .fail _
      rw [Plan.run_sub]
      exact setting.below (agrees.applyNative_follows means plain)
  · refine .stops ?_
    rw [fails]
    exact fun _ _ => nofun

/-- The default continuation answers its arguments as by name. -/
theorem identity_step (agrees : Agrees dressed globals reading m) {ref : Nat}
    (hold : HoldAll dressed globals reading args entries)
    (hold' : HoldNamed dressed globals reading kwargs named)
    (values : ∀ entry ∈ entries, ∃ val, entry = .value val) :
    Follows dressed m ((Task.apply (.identity ref) args kwargs).plan.run perform)
      (((Query.apply (.identity ref) entries named path).course globals).run refer)
      (Gives dressed globals (Apart path) reading m (Means dressed)) := by
  rcases hold'.nil_or "identity" with ⟨rfl, rfl⟩ | ⟨⟨error, fails⟩, bound, rest, rfl⟩
  · refine .step rfl ?_
    obtain ⟨vals, all, means⟩ := hold.values values
    show Follows _ _ _ ((Course.ofOption (entries.mapM Entry.value?) >>= fun values =>
      pure (Val.pack values)).run refer) _
    rw [Course.run_bind, Course.run_ofOption, all]
    exact .pure (.same agrees means.pack)
  · refine .stops ?_
    rw [fails]
    exact fun _ _ => nofun

/-- Applications follow each other. -/
theorem Simulates.apply_step (sim : Simulates dressed globals blocked perform refer)
    (setting : Setting dressed globals perform refer)
    (opens : Opens dressed globals blocked reading m path) {callee : Callable} {val : Val}
    (means : Means dressed reading (.func callee) val)
    (hold : HoldAll dressed globals reading args entries)
    (hold' : HoldNamed dressed globals reading kwargs named)
    (strict : val.takesThunks = false -> (∀ entry ∈ entries, ∃ val, entry = .value val) ∧
      ∀ bound ∈ named, ∃ val, bound.2 = .value val) :
    Follows dressed m ((Task.apply callee args kwargs).plan.run perform)
      (((Query.apply val entries named path).course globals).run refer)
      (Gives dressed globals (Apart path) reading m (Means dressed)) := by
  cases means with
  | native plain => exact setting.native_step opens.agrees plain hold hold' (strict rfl).1
  | identity ref => exact identity_step opens.agrees hold hold' (strict rfl).1
  | @closure _ ref made function other env names dresses _ becomes stands fits =>
    have follows := sim.closure_step opens ref made becomes stands fits hold hold' strict
    unfold dress at dresses
    split at dresses
    · next takes =>
      -- the wrapper costs the machine one step more
      obtain rfl : dressed = true := (Bool.and_eq_true_iff.mp takes).1
      subst dresses
      have same : perform (.apply (.closure ref other env) args kwargs) =
          (Task.apply (.closure ref other env) args kwargs).plan.run perform := by
        rw [setting.full rfl]
        exact Task.full_eq _
      show Follows _ _ ((Plan.sub (.apply (.closure ref other env) args kwargs)).run perform) _ _
      rwa [Plan.run_sub, same]
    · subst dresses
      exact follows

end Trampoline.ByName
