import Trampoline.Proofs.Evaluation.Runs
import Trampoline.Proofs.Transport.Shown

/-!
# Keys of memoized calls

The key of a call is a list: the keys of its positional arguments, then a pair of name and key for
each keyword argument. Values with the same key are the same, so calls with the same key differ at
most in how they split the list: a positional argument of one that is a pair of a string and a value
is a keyword argument of the other.

Equality looks through lists into the machine, keys do not: what refers to a list has none. Where no
list contains itself, equality needs no bound on how deep it looks. It is an equivalence, and on
values with a key it is the equality of their keys.
-/

namespace Trampoline

open Exec

/-! ## Keys and values -/

mutual

/-- The comparison of keys is their equality. -/
theorem MemoKey.same_iff : ∀ {left right : MemoKey}, left.same right = true ↔ left = right
  | .nil, right => by cases right <;> simp [MemoKey.same]
  | .bool _, right => by cases right <;> simp [MemoKey.same]
  | .int _, right => by cases right <;> simp [MemoKey.same]
  | .str _, right => by cases right <;> simp [MemoKey.same]
  | .tuple lefts, right => by
    cases right with
    | tuple rights => simp [MemoKey.same, sameKeys_iff]
    | _ => simp [MemoKey.same]

theorem sameKeys_iff : ∀ {lefts rights : List MemoKey}, sameKeys lefts rights = true ↔
    lefts = rights
  | [], rights => by cases rights <;> simp [sameKeys]
  | left :: lefts, rights => by
    cases rights with
    | nil => simp [sameKeys]
    | cons right rights => simp [sameKeys, MemoKey.same_iff, sameKeys_iff]

end

/-- Values have keys if the first and the others have. -/
theorem memoKeys?_cons {value : Value} {rest : List Value} {keys : List MemoKey} :
    memoKeys? (value :: rest) = some keys ↔ ∃ key others, value.memoKey? = some key ∧
      memoKeys? rest = some others ∧ keys = key :: others := by
  rw [memoKeys?]
  cases value.memoKey? with
  | none => simp
  | some key =>
    cases memoKeys? rest with
    | none => simp
    | some others => simp [eq_comm]

mutual

/-- The key of a value tells what the value is. -/
theorem Value.eq_of_memoKey? : ∀ {left right : Value} {key : MemoKey},
    left.memoKey? = some key -> right.memoKey? = some key -> left = right
  | .nil, right, _, rfl, same => by cases right <;> simp_all [Value.memoKey?]
  | .bool _, right, _, rfl, same => by cases right <;> simp_all [Value.memoKey?]
  | .int _, right, _, rfl, same => by cases right <;> simp_all [Value.memoKey?]
  | .str _, right, _, rfl, same => by cases right <;> simp_all [Value.memoKey?]
  | .tuple lefts, right, key, known, same => by
    obtain ⟨keys, each, rfl⟩ := Option.map_eq_some_iff.mp known
    cases right with
    | tuple rights =>
      obtain ⟨_, each', ⟨⟩⟩ := Option.map_eq_some_iff.mp same
      rw [eq_of_memoKeys? each each']
    | _ => simp [Value.memoKey?] at same

theorem eq_of_memoKeys? : ∀ {lefts rights : List Value} {keys : List MemoKey},
    memoKeys? lefts = some keys -> memoKeys? rights = some keys -> lefts = rights
  | [], rights, _, rfl, same => by
    cases rights with
    | nil => rfl
    | cons right rights =>
      obtain ⟨_, _, _, _, equal⟩ := memoKeys?_cons.mp same
      cases equal
  | left :: lefts, rights, keys, known, same => by
    obtain ⟨key, others, first, rest, rfl⟩ := memoKeys?_cons.mp known
    cases rights with
    | nil => cases same
    | cons right rights =>
      obtain ⟨_, _, first', rest', ⟨⟩⟩ := memoKeys?_cons.mp same
      rw [Value.eq_of_memoKey? first first', eq_of_memoKeys? rest rest']

end

/-- The keys of two lists of values, one after the other, are the keys of both. -/
theorem memoKeys?_append {values others : List Value} {keys more : List MemoKey}
    (known : memoKeys? values = some keys) (known' : memoKeys? others = some more) :
    memoKeys? (values ++ others) = some (keys ++ more) := by
  induction values generalizing keys with
  | nil =>
    cases known
    exact known'
  | cons value rest ih =>
    obtain ⟨key, later, first, rest, rfl⟩ := memoKeys?_cons.mp known
    exact memoKeys?_cons.mpr ⟨key, later ++ more, first, ih rest, rfl⟩

/-! ## Keys of calls -/

/-- The value whose key a keyword argument has: its name together with its value. -/
def Value.pair (kwarg : String × Value) : Value := .tuple [.str kwarg.1, kwarg.2]

/-- A pair tells its name and its value. -/
theorem Value.pair_injective {kwarg other : String × Value} (same : pair kwarg = pair other) :
    kwarg = other := by
  obtain ⟨name, value⟩ := kwarg
  cases same
  rfl

theorem memoKey?_pair {name : String} {value : Value} {key : MemoKey}
    (known : value.memoKey? = some key) :
    (Value.pair (name, value)).memoKey? = some (kwargKey name key) := by
  simp [Value.pair, Value.memoKey?, memoKeys?, known, kwargKey]

/-- The keys of forced arguments are their keys. -/
theorem forceKeys_keys {n : Nat} {args values : List Value} {keys : List MemoKey} {m m' : Machine}
    (ends : forceKeys n args m = some (.ok (values, keys), m')) : memoKeys? values = some keys := by
  induction args generalizing n values keys m m' with
  | nil =>
    cases n with
    | zero => cases ends
    | succ n =>
      cases ends
      rfl
  | cons arg rest ih =>
    cases n with
    | zero => cases ends
    | succ n =>
      obtain ⟨value, middle, -, ends⟩ := bind_eq_ok.mp ends
      cases known : value.memoKey? with
      | none =>
        simp only [known] at ends
        cases ends
      | some key =>
        simp only [known] at ends
        obtain ⟨⟨others, more⟩, last, forces, ends⟩ := bind_eq_ok.mp ends
        cases ends
        exact memoKeys?_cons.mpr ⟨key, more, known, ih forces, rfl⟩

/-- The keys of forced keyword arguments are those of pairs. -/
theorem forceKwargKeys_keys {n : Nat} {kwargs values : Kwargs} {keys : List MemoKey}
    {m m' : Machine} (ends : forceKwargKeys n kwargs m = some (.ok (values, keys), m')) :
    memoKeys? (values.map Value.pair) = some keys := by
  induction kwargs generalizing n values keys m m' with
  | nil =>
    cases n with
    | zero => cases ends
    | succ n =>
      cases ends
      rfl
  | cons kwarg rest ih =>
    cases n with
    | zero => cases ends
    | succ n =>
      obtain ⟨value, middle, -, ends⟩ := bind_eq_ok.mp ends
      cases known : value.memoKey? with
      | none =>
        simp only [known] at ends
        cases ends
      | some key =>
        simp only [known] at ends
        obtain ⟨⟨others, more⟩, last, forces, ends⟩ := bind_eq_ok.mp ends
        cases ends
        exact memoKeys?_cons.mpr ⟨_, more, memoKey?_pair known, ih forces, rfl⟩

/-- The calls have the same key: they are the same, or one gives as pairs in the end what the other
gives by keyword in the beginning. -/
def SharedKey (args args' : List Value) (kwargs kwargs' : Kwargs) : Prop :=
  ∃ pairs : Kwargs,
    (args = args' ++ pairs.map Value.pair ∧ kwargs' = pairs ++ kwargs) ∨
      (args' = args ++ pairs.map Value.pair ∧ kwargs = pairs ++ kwargs')

/-- Where one list of arguments is longer, what it has more are pairs of the other's keywords. -/
theorem SharedKey.of_split {args args' more : List Value} {kwargs kwargs' : Kwargs}
    (longer : args' = args ++ more)
    (pairs : kwargs.map Value.pair = more ++ kwargs'.map Value.pair) :
    ∃ pairs : Kwargs, args' = args ++ pairs.map Value.pair ∧ kwargs = pairs ++ kwargs' := by
  obtain ⟨first, rest, rfl, rfl, same⟩ := List.map_eq_append_iff.mp pairs
  obtain rfl := (List.map_inj_right fun _ _ => Value.pair_injective).mp same
  exact ⟨first, longer, rfl⟩

/-- Calls with the same key share it as described. -/
theorem sharedKey_of_memoKeys? {args args' : List Value} {kwargs kwargs' : Kwargs}
    {key : List MemoKey} (known : memoKeys? (args ++ kwargs.map Value.pair) = some key)
    (known' : memoKeys? (args' ++ kwargs'.map Value.pair) = some key) :
    SharedKey args args' kwargs kwargs' := by
  rcases List.append_eq_append_iff.mp (eq_of_memoKeys? known known') with
    ⟨more, longer, pairs⟩ | ⟨more, longer, pairs⟩
  · obtain ⟨pairs, args, kwargs⟩ := SharedKey.of_split longer pairs
    exact ⟨pairs, .inr ⟨args, kwargs⟩⟩
  · obtain ⟨pairs, args, kwargs⟩ := SharedKey.of_split longer pairs
    exact ⟨pairs, .inl ⟨args, kwargs⟩⟩

/-- Calls with the same key and as many positional arguments are the same. -/
theorem SharedKey.eq {args args' : List Value} {kwargs kwargs' : Kwargs}
    (shared : SharedKey args args' kwargs kwargs') (count : args.length = args'.length) :
    args = args' ∧ kwargs = kwargs' := by
  obtain ⟨pairs, ⟨rfl, rfl⟩ | ⟨rfl, rfl⟩⟩ := shared
  · have none : pairs = [] := by simpa using count
    simp [none]
  · have none : pairs = [] := by simpa using count
    simp [none]

/-! ## Laws of comparison -/

section Laws

variable {same : Nat -> Nat -> Bool}

mutual

/-- Comparison relates every value to itself if it does so for lists. -/
theorem Value.equalWith_refl (refl : ∀ ref, same ref ref = true) :
    ∀ value : Value, value.equalWith same value = true
  | .list ref => by rw [Value.equalWith, refl]
  | .tuple items => by rw [Value.equalWith, equalItemsWith_refl refl items]
  | .nil => by rw [Value.equalWith]
  | .bool _ | .int _ | .str _ | .func _ | .jump _ | .promise _ => by
    rw [Value.equalWith, beq_self_eq_true]

theorem equalItemsWith_refl (refl : ∀ ref, same ref ref = true) :
    ∀ values : List Value, equalItemsWith same values values = true
  | [] => by rw [equalItemsWith]
  | value :: rest => by
    rw [equalItemsWith, Value.equalWith_refl refl value, equalItemsWith_refl refl rest,
      Bool.and_self]

end

mutual

/-- Comparison does not ask which value comes first. -/
theorem Value.equalWith_symm (symm : ∀ ref ref', same ref ref' = same ref' ref) :
    ∀ left right : Value, left.equalWith same right = right.equalWith same left
  | .list ref, right => by
    cases right with
    | list ref' => rw [Value.equalWith, Value.equalWith, symm]
    | _ => simp only [Value.equalWith]
  | .tuple lefts, right => by
    cases right with
    | tuple rights => rw [Value.equalWith, Value.equalWith, equalItemsWith_symm symm lefts rights]
    | _ => simp only [Value.equalWith]
  | .nil, right | .bool _, right | .int _, right | .str _, right | .func _, right | .jump _, right
  | .promise _, right => by
    cases right <;> simp only [Value.equalWith, Bool.beq_comm]

theorem equalItemsWith_symm (symm : ∀ ref ref', same ref ref' = same ref' ref) :
    ∀ lefts rights : List Value,
      equalItemsWith same lefts rights = equalItemsWith same rights lefts
  | [], [] | [], _ :: _ | _ :: _, [] => by simp only [equalItemsWith]
  | left :: lefts, right :: rights => by
    rw [equalItemsWith, equalItemsWith, Value.equalWith_symm symm left right,
      equalItemsWith_symm symm lefts rights]

end

mutual

/-- Comparison can be passed on from one value to the next. -/
theorem Value.equalWith_trans
    (trans : ∀ a b c, same a b = true -> same b c = true -> same a c = true) :
    ∀ left middle right : Value, left.equalWith same middle = true ->
      middle.equalWith same right = true -> left.equalWith same right = true
  | .list ref, middle, right, first, second => by
    cases middle <;> cases right <;>
      simp only [Value.equalWith, Bool.false_eq_true] at first second ⊢
    exact trans _ _ _ first second
  | .tuple lefts, middle, right, first, second => by
    cases middle <;> cases right <;>
      simp only [Value.equalWith, Bool.false_eq_true] at first second ⊢
    exact equalItemsWith_trans trans lefts _ _ first second
  | .nil, middle, right, first, second | .bool _, middle, right, first, second
  | .int _, middle, right, first, second | .str _, middle, right, first, second
  | .func _, middle, right, first, second | .jump _, middle, right, first, second
  | .promise _, middle, right, first, second => by
    cases middle <;> cases right <;>
      simp only [Value.equalWith, Bool.false_eq_true, beq_iff_eq] at first second ⊢ <;>
      exact first.trans second

theorem equalItemsWith_trans
    (trans : ∀ a b c, same a b = true -> same b c = true -> same a c = true) :
    ∀ lefts middles rights : List Value, equalItemsWith same lefts middles = true ->
      equalItemsWith same middles rights = true -> equalItemsWith same lefts rights = true
  | [], middles, rights, first, second => by
    cases middles <;> cases rights <;>
      simp only [equalItemsWith, Bool.false_eq_true] at first second ⊢
  | left :: lefts, middles, rights, first, second => by
    cases middles <;> cases rights <;>
      simp only [equalItemsWith, Bool.false_eq_true, Bool.and_eq_true] at first second ⊢
    exact ⟨Value.equalWith_trans trans left _ _ first.1 second.1,
      equalItemsWith_trans trans lefts _ _ first.2 second.2⟩

end

end Laws

section Depths

variable (m : Machine)

/-- Down to any depth a list equals itself. -/
theorem equalListsTo_refl (depth ref : Nat) : equalListsTo m depth ref ref = true := by
  cases depth with
  | zero => rw [equalListsTo, beq_self_eq_true]
  | succ depth => rw [equalListsTo, beq_self_eq_true, Bool.true_or]

/-- Down to any depth equality of lists goes both ways. -/
theorem equalListsTo_symm (depth left right : Nat) :
    equalListsTo m depth left right = equalListsTo m depth right left := by
  induction depth generalizing left right with
  | zero => simp only [equalListsTo, Bool.beq_comm]
  | succ depth ih =>
    rw [equalListsTo, equalListsTo, equalItemsWith_symm ih, Bool.beq_comm (a := left),
      Bool.beq_comm (a := (m.items left).size)]

/-- Down to any depth equality of lists can be passed on. -/
theorem equalListsTo_trans (depth left middle right : Nat)
    (first : equalListsTo m depth left middle = true)
    (second : equalListsTo m depth middle right = true) :
    equalListsTo m depth left right = true := by
  induction depth generalizing left middle right with
  | zero =>
    simp only [equalListsTo, beq_iff_eq] at first second ⊢
    exact first.trans second
  | succ depth ih =>
    simp only [equalListsTo, Bool.or_eq_true, Bool.and_eq_true, beq_iff_eq] at first second ⊢
    rcases first with rfl | ⟨size, items⟩
    · exact second
    · rcases second with rfl | ⟨size', items'⟩
      · exact .inr ⟨size, items⟩
      · exact .inr ⟨size.trans size', equalItemsWith_trans ih _ _ _ items items'⟩

/-- Equality is an equivalence on every machine. -/
theorem Machine.equal_equivalence : Equivalence fun left right => m.equal left right = true where
  refl := Value.equalWith_refl (equalListsTo_refl m _)
  symm {left right} equal := by
    rw [Machine.equal, Value.equalWith_symm (equalListsTo_symm m _)]
    exact equal
  trans := Value.equalWith_trans (equalListsTo_trans m _) _ _ _

end Depths

/-! ## Comparison without a bound -/

namespace Machine

/-- No list contains itself. -/
def Acyclic (m : Machine) : Prop := ∀ ref, ¬ Relation.TransGen m.Nests ref ref

/-- All lists in lists exist. -/
def Closed (m : Machine) : Prop := ∀ outer inner, m.Nests outer inner -> inner < m.lists.size

/-- All lists in the value exist. -/
def Knows (m : Machine) (value : Value) : Prop := ∀ ref ∈ value.lists, ref < m.lists.size

/-- How lists compare if nothing bounds the way down: they are the same, or as long as each other
with items that compare in this way. -/
def Compares (m : Machine) (same : Nat -> Nat -> Bool) : Prop :=
  ∀ left < m.lists.size, ∀ right < m.lists.size, same left right = (left == right ||
    ((m.items left).size == (m.items right).size &&
      equalItemsWith same (m.items left).toList (m.items right).toList))

variable {m : Machine}

/-- Lists that refer to earlier ones only do not contain themselves. -/
theorem acyclic_of_earlier (earlier : ∀ outer < m.lists.size,
    ∀ inner ∈ listsOfAll (m.items outer).toList, inner < outer) : m.Acyclic ∧ m.Closed := by
  have inside {outer inner : Nat} (nests : m.Nests outer inner) : outer < m.lists.size := by
    by_contra outside
    have none : m.items outer = #[] := by
      rw [Machine.items, Array.getD_eq_getD_getElem?,
        Array.getElem?_eq_none (Nat.le_of_not_lt outside)]
      rfl
    rw [Machine.Nests, none] at nests
    cases nests
  have below {outer inner : Nat} (nests : Relation.TransGen m.Nests outer inner) :
      inner < outer := by
    induction nests with
    | single nests => exact earlier _ (inside nests) _ nests
    | tail _ nests ih => exact (earlier _ (inside nests) _ nests).trans ih
  exact ⟨fun ref nests => Nat.lt_irrefl ref (below nests),
    fun _ _ nests => (earlier _ (inside nests) _ nests).trans (inside nests)⟩

/-- The bound on how deep equality looks is never reached. -/
theorem Closed.compares (closed : m.Closed) :
    m.Compares fun left right => m.equal (.list left) (.list right) := by
  intro left inside right inside'
  have ground : equalListsTo m (m.lists.size * m.lists.size + 1) left right =
      equalListsTo m (m.lists.size * m.lists.size) left right :=
    @equalListsTo_ground m (· < m.lists.size) (fun _ => closed _ _) id _ _ _ inside inside'
      (Nat.le_succ _)
  have equal (left right : Nat) : m.equal (.list left) (.list right) =
      equalListsTo m (m.lists.size * m.lists.size) left right := by
    rw [Machine.equal, Value.equalWith]
  simp only [equal]
  rw [← ground, equalListsTo]

/-- A comparison without a bound finds what equality down to a depth finds, if the depth is that of
the lists. -/
theorem Acyclic.compares_ground (acyclic : m.Acyclic) (closed : m.Closed)
    {same : Nat -> Nat -> Bool} (compares : m.Compares same) {above : Finset Nat}
    {left right depth : Nat} (inside : left < m.lists.size) (inside' : right < m.lists.size)
    (below : ∀ outer ∈ above, outer < m.lists.size ∧ Relation.TransGen m.Nests outer left)
    (deep : m.lists.size ≤ depth + above.card) :
    same left right = equalListsTo m depth left right := by
  induction depth generalizing above left right with
  | zero =>
    have fewer := card_above_lt (acyclic left) inside below
    omega
  | succ depth ih =>
    rw [compares left inside right inside', equalListsTo]
    congr 2
    refine equalItemsWith_congr fun inner nests inner' nests' => ?_
    obtain ⟨count, deeper⟩ := insert_above (acyclic left) inside below nests
    exact ih (closed _ _ nests) (closed _ _ nests') deeper (by omega)

/-- Equality is the only comparison without a bound. -/
theorem Acyclic.equal_unique (acyclic : m.Acyclic) (closed : m.Closed)
    {same : Nat -> Nat -> Bool} (compares : m.Compares same) {left right : Value}
    (known : m.Knows left) (known' : m.Knows right) :
    left.equalWith same right = m.equal left right := by
  refine Value.equalWith_congr fun ref member ref' member' => ?_
  refine acyclic.compares_ground closed compares (known ref member) (known' ref' member')
    none_above ?_
  rw [Finset.card_empty, Nat.add_zero]
  exact Nat.le_mul_self _

end Machine

/-! ## Values with a key -/

/-- What is compared by identity or may change. -/
def Value.hasIdentity : Value -> Bool
  | .list _ | .func _ | .jump _ | .promise _ => true
  | .nil | .bool _ | .int _ | .str _ | .tuple _ => false

/-- The one value occurs in the other, through tuples. -/
inductive Value.Occurs : Value -> Value -> Prop
  | self {value : Value} : Occurs value value
  | item {part item : Value} {items : List Value} (member : item ∈ items)
      (occurs : Occurs part item) : Occurs part (.tuple items)

mutual

/-- A value has a key if nothing with an identity occurs in it. -/
theorem Value.memoKey?_isSome : ∀ {value : Value},
    value.memoKey?.isSome = true ↔ ∀ part : Value, part.Occurs value -> part.hasIdentity = false
  | .tuple items => by
    rw [Value.memoKey?, Option.isSome_map, memoKeys?_isSome]
    constructor
    · rintro plain part (_ | ⟨member, occurs⟩)
      · rfl
      · exact plain _ member part occurs
    · exact fun plain item member part occurs => plain part (.item member occurs)
  | .nil | .bool _ | .int _ | .str _ => by
    refine ⟨?_, fun _ => rfl⟩
    rintro - part ⟨⟩
    rfl
  | .list _ | .func _ | .jump _ | .promise _ => by
    constructor
    · intro keyed
      cases keyed
    · intro plain
      cases plain _ .self

theorem memoKeys?_isSome : ∀ {values : List Value}, (memoKeys? values).isSome = true ↔
    ∀ value ∈ values, ∀ part : Value, part.Occurs value -> part.hasIdentity = false
  | [] => by simp [memoKeys?]
  | value :: rest => by
    rw [List.forall_mem_cons, ← Value.memoKey?_isSome, ← memoKeys?_isSome, memoKeys?]
    cases value.memoKey? <;> cases memoKeys? rest <;> simp

end

section Keyed

variable {same : Nat -> Nat -> Bool}

mutual

/-- What has a key is equal to itself only, whichever lists are the same. -/
theorem Value.equalWith_keyed : ∀ {left right : Value} {key : MemoKey},
    left.memoKey? = some key -> (left.equalWith same right = true ↔ left = right)
  | .tuple lefts, right, key, known => by
    obtain ⟨keys, each, -⟩ := Option.map_eq_some_iff.mp known
    cases right with
    | tuple rights => rw [Value.equalWith, equalItemsWith_keyed each, Value.tuple.injEq]
    | _ => simp [Value.equalWith]
  | .nil, right, _, _ | .bool _, right, _, _ | .int _, right, _, _ | .str _, right, _, _ => by
    cases right <;> simp [Value.equalWith]

theorem equalItemsWith_keyed : ∀ {lefts rights : List Value} {keys : List MemoKey},
    memoKeys? lefts = some keys -> (equalItemsWith same lefts rights = true ↔ lefts = rights)
  | [], rights, _, _ => by cases rights <;> simp [equalItemsWith]
  | left :: lefts, rights, keys, known => by
    obtain ⟨key, others, first, rest, rfl⟩ := memoKeys?_cons.mp known
    cases rights with
    | nil => simp [equalItemsWith]
    | cons right rights =>
      rw [equalItemsWith, Bool.and_eq_true, Value.equalWith_keyed first, equalItemsWith_keyed rest,
        List.cons.injEq]

end

end Keyed

theorem Machine.equal_keyed (m : Machine) {left right : Value} {key : MemoKey}
    (known : left.memoKey? = some key) : m.equal left right = true ↔ left = right :=
  Value.equalWith_keyed known

/-- Keys are the same for the same value only. -/
theorem MemoKey.same_iff_eq {left right : Value} {key key' : MemoKey}
    (known : left.memoKey? = some key) (known' : right.memoKey? = some key') :
    key.same key' = true ↔ left = right := by
  rw [MemoKey.same_iff]
  constructor
  · rintro rfl
    exact Value.eq_of_memoKey? known known'
  · rintro rfl
    exact Option.some.inj (known.symm.trans known')

/-- A memoized function finds the keys that its arguments have in any machine, and leaves the
machine as it is. -/
theorem full_forceKeys {values : List Value} {keys : List MemoKey}
    (known : memoKeys? values = some keys) (m : Machine) :
    (Task.forceKeys values).full m = some (.ok (values, keys), m) := by
  induction values generalizing keys with
  | nil =>
    cases known
    rw [Task.full_eq]
    rfl
  | cons value rest ih =>
    obtain ⟨key, others, first, more, rfl⟩ := memoKeys?_cons.mp known
    have plain (ref : Nat) : value ≠ .promise ref := by
      rintro rfl
      cases first
    rw [Task.full_eq, Task.plan, Plan.run_sub_bind (full_force plain)]
    simp only [first]
    rw [Plan.run_sub_bind (ih more)]
    rfl

/-! ## Equality and keys agree -/

/-- Where no list contains itself, equality is an equivalence, and the one comparison that looks
through lists without a bound, if all lists in lists exist. Values with a key are equal if their
keys are the same, and equal to values with a key only. A value has a key if no list, function, jump
or promise occurs in it; it then has this key, and is equal to the same values, in every machine,
whatever is run in between. -/
theorem Machine.Acyclic.equal_laws {m : Machine} (acyclic : m.Acyclic) :
    (Equivalence fun left right => m.equal left right = true) ∧
    (m.Closed -> (m.Compares fun left right => m.equal (.list left) (.list right)) ∧
      ∀ same, m.Compares same -> ∀ left right, m.Knows left -> m.Knows right ->
        left.equalWith same right = m.equal left right) ∧
    (∀ left right key key', left.memoKey? = some key -> right.memoKey? = some key' ->
      (key.same key' = true ↔ m.equal left right = true)) ∧
    (∀ left right, left.memoKey?.isSome = true -> m.equal left right = true ->
      right.memoKey?.isSome = true) ∧
    (∀ value, value.memoKey?.isSome = true ↔
      ∀ part : Value, part.Occurs value -> part.hasIdentity = false) ∧
    ∀ value key, value.memoKey? = some key -> ∀ m' : Machine,
      (Task.forceKeys [value]).full m' = some (.ok ([value], [key]), m') ∧
      ∀ other, m'.equal value other = m.equal value other := by
  refine ⟨m.equal_equivalence, fun closed => ⟨closed.compares, fun same compares left right =>
    acyclic.equal_unique closed compares⟩, ?_, ?_, fun _ => Value.memoKey?_isSome, ?_⟩
  · intro left right key key' known known'
    rw [MemoKey.same_iff_eq known known', m.equal_keyed known]
  · intro left right keyed equal
    obtain ⟨key, known⟩ := Option.isSome_iff_exists.mp keyed
    rwa [← (m.equal_keyed known).mp equal]
  · intro value key known m'
    have alone : memoKeys? [value] = some [key] := memoKeys?_cons.mpr ⟨key, [], known, rfl, rfl⟩
    refine ⟨full_forceKeys alone m', fun other => Bool.eq_iff_iff.mpr ?_⟩
    rw [m'.equal_keyed known, m.equal_keyed known]

/-- Two lists that have the same list twice. -/
def pairsShared : Machine :=
  { Machine.start false with
    lists := #[#[.int 1], #[.list 0, .list 0], #[.list 0, .list 0]] }

/-- The two lists are an instance: they are equal both ways and have no keys. -/
theorem pairsShared_equal : pairsShared.Acyclic ∧ pairsShared.Closed ∧
    pairsShared.equal (.list 1) (.list 2) = true ∧ pairsShared.equal (.list 2) (.list 1) = true ∧
    (∀ same, pairsShared.Compares same -> same 1 2 = true) ∧
    (Value.list 1).memoKey?.isSome = false ∧
    (Value.tuple [.int 1, .str "a"]).memoKey?.isSome = true ∧
    ∀ other, pairsShared.equal (.tuple [.int 1, .str "a"]) other = true ->
      other.memoKey?.isSome = true := by
  obtain ⟨acyclic, closed⟩ : pairsShared.Acyclic ∧ pairsShared.Closed :=
    Machine.acyclic_of_earlier (by decide)
  obtain ⟨equivalence, unbounded, -, equalKeyed, -⟩ := acyclic.equal_laws
  have equal : pairsShared.equal (.list 1) (.list 2) = true := by decide
  refine ⟨acyclic, closed, equal, equivalence.symm equal, fun same compares => ?_, rfl, rfl,
    fun other => equalKeyed _ other rfl⟩
  have known : pairsShared.Knows (.list 1) ∧ pairsShared.Knows (.list 2) := by
    unfold Machine.Knows
    decide
  exact ((unbounded closed).2 same compares _ _ known.1 known.2).trans equal

end Trampoline
