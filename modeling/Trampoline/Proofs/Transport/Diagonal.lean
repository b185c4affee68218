import Trampoline.Proofs.Transport.Programs

/-!
# Machines that refer only to what they have

A machine is whole if all that it keeps refers to numbers that it has given out. It then mirrors
itself, every number standing for itself, also after something new was put into it that nothing
refers to. Where numbers stand for themselves, what is the same up to numbers is the same.
-/

namespace Trampoline

variable {mirror other : Mirror} {reflection later : Reflection} {m n n' : Machine}

/-! ## From one mirror to another -/

section Across

/-- Scopes without hidden names are the same under any reflection that knows their cells. -/
theorem Env.Mirrors.across
    (within : ∀ {store a b}, reflection.pairs store a b -> later.pairs store a b)
    (bare : ∀ name, ¬ mirror.hides name) {veiled : Bool} {env env' : Env}
    (mirrors : Env.Mirrors mirror reflection veiled env env') :
    Env.Mirrors other later false env env' := by
  induction mirrors with
  | nil => exact .nil
  | cons known _ ih => exact .cons (within known) ih
  | hidden _ hidden => exact absurd hidden (bare _)

theorem Mirror.Allows.all (nodes : ∀ e, other.node e) (e : Expr) : e.All (other.Allows false) :=
  fun node _ => ⟨nodes node, by simp⟩

/-- What one comparison allows in an expression, another that asks less allows too. -/
theorem Expr.All.across (nodes : ∀ e, mirror.node e -> other.node e) {veiled : Bool} {e : Expr}
    (allows : e.All (mirror.Allows veiled)) : e.All (other.Allows false) :=
  allows.imp fun _ _ allowed => ⟨nodes _ allowed.node, by simp⟩

variable (within : ∀ {store a b}, reflection.pairs store a b -> later.pairs store a b)
  (nodes : ∀ e, mirror.node e -> other.node e) (bare : ∀ name, ¬ mirror.hides name)
  (plain : ∀ reflection callable callable', ¬ mirror.special reflection callable callable')
include within nodes bare plain

/-- What is the same for a mirror that hides nothing and knows no special callables is the same for
one that allows as much code. -/
theorem Callable.Mirrors.across {callable callable' : Callable}
    (mirrors : callable.Mirrors mirror reflection callable') :
    callable.Mirrors other later callable' := by
  induction mirrors with
  | closure _ known fits scope =>
    exact .closure false (within known) (fits.across nodes) (scope.across within bare)
  | native => exact .native
  | trampolined _ ih => exact .trampolined ih
  | memoized _ known ih => exact .memoized ih (within known)
  | looped _ ih => exact .looped ih
  | loopHandle known _ ih => exact .loopHandle (within known) ih
  | escapePoint _ ih => exact .escapePoint ih
  | escape known => exact .escape (within known)
  | contEnabled _ ih => exact .contEnabled ih
  | lazyFn _ ih => exact .lazyFn ih
  | continuation _ known fits scope extent =>
    exact .continuation false (within known) (fits.across nodes) (scope.across within bare)
      (within extent)
  | identity known => exact .identity (within known)
  | special special => exact absurd special (plain _ _ _)

omit within nodes bare plain in
mutual

/-- Values without special callables are the same in another comparison that asks less. -/
theorem Value.Mirrors.across
    (within : ∀ {store a b}, reflection.pairs store a b -> later.pairs store a b)
    (nodes : ∀ e, mirror.node e -> other.node e) (bare : ∀ name, ¬ mirror.hides name)
    (plain : ∀ reflection callable callable', ¬ mirror.special reflection callable callable')
    {value value' : Value} (mirrors : value.Mirrors mirror reflection value') :
    value.Mirrors other later value' := by
  cases mirrors with
  | nil => exact .nil
  | bool => exact .bool
  | int => exact .int
  | str => exact .str
  | tuple items => exact .tuple (ValuesMirror.across within nodes bare plain items)
  | list known => exact .list (within known)
  | func same => exact .func (same.across within nodes bare plain)
  | jump known => exact .jump (within known)
  | promise known => exact .promise (within known)

theorem ValuesMirror.across
    (within : ∀ {store a b}, reflection.pairs store a b -> later.pairs store a b)
    (nodes : ∀ e, mirror.node e -> other.node e) (bare : ∀ name, ¬ mirror.hides name)
    (plain : ∀ reflection callable callable', ¬ mirror.special reflection callable callable')
    {values values' : List Value} (mirrors : ValuesMirror mirror reflection values values') :
    ValuesMirror other later values values' := by
  cases mirrors with
  | nil => exact .nil
  | cons first rest =>
    exact .cons (Value.Mirrors.across within nodes bare plain first)
      (ValuesMirror.across within nodes bare plain rest)

end

/-- Keyword arguments are the same in another comparison that asks less. -/
theorem KwargsMirror.across {kwargs kwargs' : Kwargs}
    (mirrors : KwargsMirror mirror reflection kwargs kwargs') :
    KwargsMirror other later kwargs kwargs' :=
  List.Forall₂.imp (fun _ _ known => ⟨known.1, known.2.across within nodes bare plain⟩) mirrors

/-- Contents are the same in another comparison that asks less. -/
theorem Content.Mirrors.across (tracked : other.tracked = true -> mirror.tracked = true)
    {content content' : Content} (mirrors : content.Mirrors mirror reflection content') :
    content.Mirrors other later content' := by
  cases mirrors with
  | cell same => exact .cell (same.across within nodes bare plain)
  | list same => exact .list (same.across within nodes bare plain)
  | promise same =>
    refine .promise ?_
    cases same with
    | pending same =>
      refine .pending ?_
      cases same with
      | expr veiled fits scope => exact .expr false (fits.across nodes) (scope.across within bare)
      | global => exact .global
    | forcing => exact .forcing
    | forced same => exact .forced (same.across within nodes bare plain)
  | jump same =>
    refine .jump ?_
    cases same with
    | pending same =>
      exact .pending
        ⟨same.target.across within nodes bare plain, same.args.across within nodes bare plain,
        same.kwargs.across within nodes bare plain,
        optionRel_imp same.cc fun _ _ same => same.across within nodes bare plain⟩
    | consumed => exact .consumed
  | cache same =>
    exact .cache
      (List.Forall₂.imp (fun _ _ known => ⟨known.1, known.2.across within nodes bare plain⟩) same)
  | extent same => exact .extent fun isTracked => same (tracked isTracked)
  | point => exact .point
  | number => exact .number

end Across

/-- The numbers that stand for each other, and nothing else that is known of them. -/
def Reflection.bare (reflection : Reflection) : Reflection :=
  ⟨reflection.pairs, fun _ _ => False, fun _ _ _ => False⟩

/-- Machines that mirror each other, on the way to a mirror that compares less. -/
theorem Machine.Mirrors.across {m m' : Machine} (machines : m.Mirrors mirror reflection m')
    (nodes : ∀ e, mirror.node e -> other.node e) (bare : ∀ name, ¬ mirror.hides name)
    (plain : ∀ reflection callable callable', ¬ mirror.special reflection callable callable')
    (sized : mirror.sized = true) (unaligned : other.aligned = false)
    (untracked : other.tracked = false)
    (passed : ∀ error,
      (mirror.lost error || mirror.passed error) = (other.lost error || other.passed error))
    (passed' : ∀ error,
      (mirror.lost' error || mirror.passed error) = (other.lost' error || other.passed error))
    (printed : other.printed = mirror.printed) (printed' : other.printed' = mirror.printed') :
    m.Mirrors other reflection.bare m' := by
  have within {store : Store} {a b : Nat} (known : reflection.pairs store a b) :
      reflection.bare.pairs store a b := known
  exact {
    bounded := machines.bounded
    oneToOne := ⟨machines.oneToOne.eq_iff⟩
    contents := fun known => (machines.contents known).across within nodes bare plain fun tracked =>
      absurd (untracked.symm.trans tracked) Bool.noConfusion
    globals := fun name => optionRel_imp (machines.globals name) fun _ _ same =>
      same.across within nodes bare plain
    fixed := False.elim
    held := False.elim
    sized := fun _ => machines.sized sized
    aligned := fun aligned => absurd (unaligned.symm.trans aligned) Bool.noConfusion
    stack := fun tracked => absurd (untracked.symm.trans tracked) Bool.noConfusion
    passed := machines.passed.trans (funext passed)
    passed' := machines.passed'.trans (funext passed')
    closedOutput := machines.closedOutput
    output := by
      rw [printed, printed']
      exact machines.output }

/-! ## What is the same -/

section Exact

variable (exact : ∀ {store a b}, reflection.pairs store a b -> a = b)
  (bare : ∀ name, ¬ mirror.hides name)
  (plain : ∀ reflection callable callable', ¬ mirror.special reflection callable callable')
include exact bare plain

theorem KwargsMirror.eq {kwargs kwargs' : Kwargs}
    (mirrors : KwargsMirror mirror reflection kwargs kwargs') : kwargs' = kwargs := by
  induction mirrors with
  | nil => rfl
  | cons first _ ih => rw [ih, Prod.ext first.1 (first.2.eq exact bare plain)]

theorem EntriesMirror.eq {entries entries' : List CacheEntry}
    (mirrors : EntriesMirror mirror reflection entries entries') : entries' = entries := by
  induction mirrors with
  | nil => rfl
  | @cons entry entry' _ _ first _ ih =>
    obtain ⟨key, value⟩ := entry
    obtain ⟨key', value'⟩ := entry'
    obtain ⟨rfl, same⟩ : key' = key ∧ value.Mirrors mirror reflection value' := first
    rw [ih, same.eq exact bare plain]

theorem Promise.Mirrors.eq {state state' : Promise}
    (mirrors : state.Mirrors mirror reflection state') : state' = state := by
  cases mirrors with
  | pending same =>
    cases same with
    | expr veiled fits scope => rw [scope.eq exact bare]
    | global => rfl
  | forcing => rfl
  | forced same => rw [same.eq exact bare plain]

theorem JumpRecord.Mirrors.eq {record record' : JumpRecord}
    (mirrors : record.Mirrors mirror reflection record') : record' = record := by
  cases mirrors with
  | @pending jump jump' same =>
    obtain ⟨target, args, kwargs, cc⟩ := jump
    obtain ⟨target', args', kwargs', cc'⟩ := jump'
    obtain ⟨targets, values, named, conts⟩ := same
    obtain rfl : target' = target := targets.eq exact bare plain
    obtain rfl : args' = args := values.eq exact bare plain
    obtain rfl : kwargs' = kwargs := named.eq exact bare plain
    obtain rfl : cc' = cc := by
      dsimp only at conts
      cases conts with
      | none => rfl
      | some same => rw [same.eq exact bare plain]
    rfl
  | consumed => rfl

theorem EvalError.Mirrors.eq {error error' : EvalError}
    (mirrors : error.Mirrors mirror reflection error') : error' = error := by
  cases mirrors with
  | plain => rfl
  | escape known same => rw [exact known, same.eq exact bare plain]

end Exact

/-! ## Whole machines -/

/-- The mirror by which a value or a machine is looked at on its own. -/
def Mirror.plain : Mirror := .faithful (fun _ => True) fun _ => false

/-- Every number that the machine has given out stands for itself. -/
def Machine.diagonal (m : Machine) : Reflection :=
  ⟨fun store a b => a = b ∧ a < m.count store, fun _ _ => False, fun _ _ _ => False⟩

/-- Everything in the value refers to what the machine has. -/
def Machine.Has (m : Machine) (value : Value) : Prop := value.Mirrors .plain m.diagonal value

/-- Everything in the arguments refers to what the machine has. -/
structure Machine.HasAll (m : Machine) (args : List Value) (kwargs : Kwargs) : Prop where
  args : ∀ value ∈ args, m.Has value
  kwargs : ∀ named ∈ kwargs, m.Has named.2

/-- Everything in the machine refers to what the machine has. -/
structure Machine.Whole (m : Machine) : Prop where
  contents : ∀ store, ∀ ref < m.count store,
    (m.content store ref).Mirrors .plain m.diagonal (m.content store ref)
  globals : ∀ name value, m.global? name = some value -> m.Has value
  stack : ∀ extent ∈ m.stack.toList, extent < m.extents.size

/-- The mirror for two machines that gain something each, which the one had not. -/
def Machine.gaining (m : Machine) (store : Store) : Mirror :=
  { Mirror.faithful (fun _ => True) m.passed with
    spare := fun other ref => other = store ∧ ref = m.count store
    printed := m.output
    printed' := m.output }

/-- A value that a machine has is the same as itself, number by number. -/
theorem Machine.Has.mirrors {value : Value} (has : m.Has value) (nodes : ∀ e, other.node e) :
    value.Mirrors other m.diagonal value :=
      has.across id (fun e _ => nodes e) (fun _ => id) fun _ _ _ => id

namespace Machine.HasAll

variable {args : List Value} {kwargs : Kwargs} (has : m.HasAll args kwargs)
  (nodes : ∀ e, other.node e)
include has nodes

theorem argsMirror : ValuesMirror other m.diagonal args args :=
  .of_forall₂ (List.forall₂_same.mpr fun value member => (has.args value member).mirrors nodes)

theorem kwargsMirror : KwargsMirror other m.diagonal kwargs kwargs :=
  List.forall₂_same.mpr fun named member => ⟨rfl, (has.kwargs named member).mirrors nodes⟩

end Machine.HasAll

theorem Machine.diagonal_oneToOne : m.diagonal.OneToOne where
  eq_iff := by
    rintro store a b a' b' ⟨rfl, -⟩ ⟨rfl, -⟩
    exact Iff.rfl

/-- Something new that nothing refers to leaves a whole machine as it was. -/
theorem Machine.Whole.gains {store : Store} (whole : m.Whole) (gains : m.Gains store n)
    (gains' : m.Gains store n') (stack : n.stack = m.stack) (stack' : n'.stack = m.stack) :
    n.Mirrors (m.gaining store) m.diagonal n' where
  bounded := by
    rintro other a b ⟨rfl, inside⟩
    rw [gains.count, gains'.count]
    exact ⟨Nat.lt_add_right _ inside, Nat.lt_add_right _ inside⟩
  oneToOne := diagonal_oneToOne
  contents := by
    rintro other a b ⟨rfl, inside⟩
    rw [gains.content inside, gains'.content inside]
    exact (whole.contents other a inside).across id (fun _ _ => trivial) (fun _ => id)
      (fun _ _ _ => id)
      fun _ => rfl
  globals name := by
    simp only [global?, gains.globals, gains'.globals]
    cases found : m.globals.lookup name with
    | none => exact .none
    | some value => exact .some ((whole.globals name value found).mirrors fun _ => trivial)
  fixed := False.elim
  held := False.elim
  sized _ := by
    have count := gains.count .list
    have count' := gains'.count .list
    simp only [Machine.count] at count count'
    rw [count, count']
  aligned _ other := by
    rw [gains.count, gains'.count]
    refine ⟨rfl, ?_, fun a b => ?_⟩
    · rintro ref ⟨rfl, rfl⟩
      rw [if_pos rfl]
      exact Nat.lt_succ_self _
    · simp only [Machine.diagonal, gaining]
      by_cases here : other = store
      · subst here
        simp only [if_true, true_and]
        omega
      · simp only [here, if_false, false_and, not_false_eq_true, and_true, Nat.add_zero]
  stack _ := by
    rw [stack, stack']
    exact ⟨Nat.zero_le _, Nat.zero_le _,
      List.forall₂_same.mpr fun extent member => ⟨rfl, whole.stack extent member⟩⟩
  passed := gains.passed
  passed' := gains'.passed
  closedOutput := gains'.closedOutput.trans gains.closedOutput.symm
  output := ⟨"", by rw [gains.output]; exact (String.append_empty).symm,
    by rw [gains'.output]; exact (String.append_empty).symm⟩

/-- Machines that mirror themselves number by number are whole. -/
theorem Machine.Mirrors.whole {node : Expr -> Prop} {passed : EvalError -> Bool}
    (mirrors : m.Mirrors (.faithful node passed) reflection m) : m.Whole := by
  have within {store : Store} {a b : Nat} (known : reflection.pairs store a b) :
      m.diagonal.pairs store a b := by
    obtain ⟨same, inside, -⟩ := ((mirrors.aligned rfl store).2.2 a b).mp known
    exact ⟨same, inside⟩
  refine ⟨fun store ref inside => ?_, fun name value found => ?_, fun extent member => ?_⟩
  · have known := ((mirrors.aligned rfl store).2.2 ref ref).mpr ⟨rfl, inside, id⟩
    exact (mirrors.contents known).across within (fun _ _ => trivial) (fun _ => id)
      (fun _ _ _ => id)
      fun _ => rfl
  · have same := mirrors.globals name
    rw [found] at same
    cases same with
    | some same => exact same.across within (fun _ _ => trivial) (fun _ => id) fun _ _ _ => id
  · have same := (mirrors.stack rfl).same
    rw [show (Mirror.faithful node passed).depth = 0 from rfl, List.drop_zero] at same
    exact (mirrors.bounded (List.forall₂_same.mp same extent member)).1

/-- Any machine has the builtins. -/
theorem Machine.has_builtin {name : String} {value : Value}
    (found : builtins.lookup name = some value)
    (m : Machine) (identity : 0 < m.identities) : m.Has value := by
  have same :
    Option.Rel (Value.Mirrors .plain .start) (builtins.lookup name) (builtins.lookup name) :=
    Machine.builtins_mirrors name
  rw [found] at same
  cases same with
  | some same =>
    refine same.across ?_ (fun _ _ => trivial) (fun _ => id) fun _ _ _ => id
    rintro store a b ⟨rfl, rfl, rfl⟩
    exact ⟨rfl, identity⟩

/-! ## What is the same in the end -/

/-- The machines are the same but for a jump record, extents and what was told. -/
structure Machine.EqualsBut (ref : Nat) (m m' : Machine) : Prop where
  globals : ∀ name, m'.global? name = m.global? name
  cells : m'.cells = m.cells
  lists : m'.lists = m.lists
  promises : m'.promises = m.promises
  caches : m'.caches = m.caches
  points : m'.points = m.points
  extents : m'.extents.size = m.extents.size
  jumps : m'.jumps.size = m.jumps.size ∧ ∀ other, other ≠ ref -> m'.jump other = m.jump other
  closures : m'.closures = m.closures
  handles : m'.handles = m.handles
  continuations : m'.continuations = m.continuations
  identities : m'.identities = m.identities
  passed : m'.passed = m.passed
  closedOutput : m'.closedOutput = m.closedOutput
  output : m'.output = m.output

/-- Arrays with the same items. -/
theorem Array.eq_of_getD {α : Type} {items items' : Array α} (dflt : α)
    (size : items'.size = items.size)
    (same : ∀ ref < items.size, items'.getD ref dflt = items.getD ref dflt) : items' = items := by
  refine Array.ext size fun ref inside' inside => ?_
  have item := same ref inside
  rwa [Array.getD_eq_getD_getElem?, Array.getD_eq_getD_getElem?, Array.getElem?_eq_getElem inside,
    Array.getElem?_eq_getElem inside'] at item

namespace Machine.Mirrors

variable {store : Store} {ref : Nat}

/-- Where one store has gained a number, numbers still stand for themselves only. -/
theorem exact (mirrors : n.Mirrors (m.gaining store) reflection n') {store : Store} {a b : Nat}
    (known : reflection.pairs store a b) : a = b :=
  (((mirrors.aligned rfl _).2.2 _ _).mp known).1

/-- Where the machines gain a jump record that nothing refers to, they are the same but for it. -/
theorem equalsBut (mirrors : n.Mirrors (m.gaining .jump) reflection n') :
    n.EqualsBut m.jumps.size n' := by
  have exact : ∀ {store a b}, reflection.pairs store a b -> a = b := mirrors.exact
  have bare : ∀ name, ¬ (m.gaining .jump).hides name := fun _ => id
  have plain : ∀ reflection callable callable',
    ¬ (m.gaining .jump).special reflection callable callable' := fun _ _ _ => id
  have count (store : Store) : n'.count store = n.count store := (mirrors.aligned rfl store).1
  have known {store : Store} {a : Nat} (inside : a < n.count store)
      (other : ¬ (store = .jump ∧ a = m.jumps.size)) : reflection.pairs store a a :=
    ((mirrors.aligned rfl store).2.2 a a).mpr ⟨rfl, inside, other⟩
  refine ⟨fun name => ?_, ?_, ?_, ?_, ?_, ?_, count .extent, ⟨count .jump, fun other differs => ?_⟩,
    count .closure,
    count .handle, count .continuation, count .identity, ?_, mirrors.closedOutput, ?_⟩
  · have same := mirrors.globals name
    generalize n.global? name = found at same
    generalize n'.global? name = found' at same
    cases same with
    | none => rfl
    | some same => rw [same.eq exact bare plain]
  · exact Array.eq_of_getD .nil (count .cell) fun ref inside =>
      (mirrors.cell (known inside (by simp))).eq exact bare plain
  · exact Array.eq_of_getD #[] (count .list) fun ref inside =>
      Array.toList_inj.mp ((mirrors.items (known inside (by simp))).eq exact bare plain)
  · exact Array.eq_of_getD .forcing (count .promise) fun ref inside =>
      (mirrors.promise (known inside (by simp))).eq exact bare plain
  · exact Array.eq_of_getD [] (count .cache) fun ref inside =>
      (mirrors.entries (known inside (by simp))).eq exact bare plain
  · exact Array.eq_of_getD false (count .point) fun ref inside =>
      mirrors.running (known inside (by simp))
  · by_cases inside : other < n.jumps.size
    · exact (mirrors.jump (known inside fun same => differs same.2)).eq exact bare plain
    · have size := count .jump
      simp only [Machine.count] at size
      simp only [Machine.jump, Array.getD_eq_getD_getElem?]
      rw [Array.getElem?_eq_none (by omega), Array.getElem?_eq_none (by omega)]
  · exact mirrors.passed'.trans mirrors.passed.symm
  · obtain ⟨text, printed, printed'⟩ := mirrors.output
    rw [printed, printed']
    rfl

end Machine.Mirrors

end Trampoline
