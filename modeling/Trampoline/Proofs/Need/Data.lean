import Trampoline.Proofs.Need.Machines

/-!
# Data and natives

What has been evaluated is data: it is shown, compared and forced without any change of the
machine, and natives compute with it what evaluation by name does.
-/

namespace Trampoline.ByName

open Exec

variable {dressed : Bool} {globals : List (String × Val)} {reading : Reading} {m : Machine}
  {value value' : Value} {val val' : Val} {values values' : List Value} {vals vals' : List Val}

/-! ## What values have in common with their meanings -/

namespace Means

/-- What means a value is no promise. -/
theorem ne_promise (means : Means dressed reading value val) (ref : Nat) :
    value ≠ .promise ref := by
  rintro rfl
  cases means

/-- A value counts as true if what it means does. -/
theorem truthy (means : Means dressed reading value val) : value.truthy = val.truthy := by
  cases means with
  | bool value => cases value <;> rfl
  | _ => rfl

/-- A value has the type of what it means. -/
theorem type (means : Means dressed reading value val) : value.type = val.type := by
  cases means with
  | @closure callable _ _ function _ _ _ dresses =>
    subst dresses
    rw [Value.type, dress]
    split <;> rfl
  | _ => rfl

/-- Literals mean the same by name as on the machine. -/
theorem ofLiteral (value : Literal) :
    Means dressed reading (.ofLiteral value) (.ofLiteral value) := by
  cases value with
  | nil => exact .nil
  | bool value => exact .bool value
  | int value => exact .int value
  | str value => exact .str value

end Means

namespace MeanAll

theorem length_eq (all : MeanAll dressed reading values vals) : values.length = vals.length := by
  induction values generalizing vals with
  | nil =>
    cases all
    rfl
  | cons first rest ih =>
    cases all with
    | cons means others => simp [ih others]

theorem pack (all : MeanAll dressed reading values vals) :
    Means dressed reading (.pack values) (.pack vals) := by
  cases all with
  | nil => exact .nil
  | cons means others =>
    cases others with
    | nil => exact means
    | cons means' others => exact .tuple (.cons means (.cons means' others))

theorem one (all : MeanAll dressed reading values vals) :
    Means dressed reading (Native.one values) (one vals) := by
  cases all with
  | nil => exact .nil
  | cons means others => exact means

theorem two (all : MeanAll dressed reading values vals) :
    Means dressed reading (Native.two values).1 (two vals).1 ∧
      Means dressed reading (Native.two values).2 (two vals).2 := by
  cases all with
  | nil => exact ⟨.nil, .nil⟩
  | cons means others =>
    cases others with
    | nil => exact ⟨means, .nil⟩
    | cons means' others => exact ⟨means, means'⟩

/-- The items at a place mean each other, or both are missing. -/
theorem getElem? (all : MeanAll dressed reading values vals) (n : Nat) :
    Option.Rel (Means dressed reading) values[n]? vals[n]? := by
  induction n generalizing values vals with
  | zero =>
    cases all with
    | nil => exact .none
    | cons means others => exact .some means
  | succ n ih =>
    cases all with
    | nil => exact .none
    | cons means others => exact ih others

end MeanAll

/-! ## Showing -/

/-- Lists nested less deep than this are shown as what they mean is. -/
def Reading.ShowsLists (reading : Reading) (showList : Nat -> String) (bound : Nat) : Prop :=
  ∀ ref vals, reading.lists[ref]? = some vals -> depthAll vals < bound ->
    showList ref = "(list" ++ reprAll vals ++ ")"

section Showing

variable {showList : Nat -> String} {bound : Nat}

mutual

/-- A value is shown as what it means is, if the lists in it are. -/
theorem Means.reprWith (shows : reading.ShowsLists showList bound) : ∀ {value : Value} {val : Val},
    Means dressed reading value val -> val.depth ≤ bound -> value.reprWith showList = val.repr
  | _, _, .nil, _ | _, _, .int _, _ | _, _, .str _, _ | _, _, .native _, _
  | _, _, .identity _, _ => rfl
  | _, _, .bool value, _ => by cases value <;> rfl
  | _, _, .tuple all, deep => by
    rw [Value.reprWith, Val.repr, all.reprItemsWith shows deep]
  | _, _, .list found, deep => shows _ _ found deep
  | _, _, .closure dresses _ becomes _ _, _ => by
    obtain ⟨body, -, rfl⟩ := becomes
    subst dresses
    rw [Value.reprWith, dress]
    split <;> rfl

theorem MeanAll.reprItemsWith (shows : reading.ShowsLists showList bound) :
    ∀ {values : List Value} {vals : List Val}, MeanAll dressed reading values vals ->
      depthAll vals ≤ bound -> Trampoline.reprItemsWith showList values = reprAll vals
  | _, _, .nil, _ => rfl
  | _, _, .cons means others, deep => by
    rw [depthAll, Nat.max_le] at deep
    rw [Trampoline.reprItemsWith, reprAll, means.reprWith shows deep.1,
      others.reprItemsWith shows deep.2]

end

end Showing

namespace Agrees

mutual

/-- Lists are nested no deeper than there are lists. -/
theorem depth_le (agrees : Agrees dressed globals reading m) : ∀ {value : Value} {val : Val},
    Means dressed reading value val -> val.depth ≤ m.lists.size
  | _, _, .nil | _, _, .bool _ | _, _, .int _ | _, _, .str _ | _, _, .native _ | _, _, .identity _
  | _, _, .closure .. => Nat.zero_le _
  | _, _, .tuple all => agrees.depthAll_le all
  | _, _, .list found =>
    Nat.lt_of_le_of_lt (agrees.items _ _ found).2
      (agrees.lists ▸ (List.getElem?_eq_some_iff.mp found).1)

theorem depthAll_le (agrees : Agrees dressed globals reading m) :
    ∀ {values : List Value} {vals : List Val}, MeanAll dressed reading values vals ->
      depthAll vals ≤ m.lists.size
  | _, _, .nil => Nat.zero_le _
  | _, _, .cons means others => Nat.max_le.mpr ⟨agrees.depth_le means, agrees.depthAll_le others⟩

end

variable (agrees : Agrees dressed globals reading m)
include agrees

/-- Lists are shown as what they mean, if the depth suffices for their items. -/
theorem showListTo (depth : Nat) (ref : Nat) (vals : List Val)
    (found : reading.lists[ref]? = some vals) (deep : depthAll vals < depth) :
    Trampoline.showListTo m depth ref = "(list" ++ reprAll vals ++ ")" := by
  induction depth generalizing ref vals with
  | zero => cases deep
  | succ depth ih =>
    rw [Trampoline.showListTo,
      (agrees.items ref vals found).1.reprItemsWith ih (Nat.le_of_lt_succ deep)]

theorem repr (means : Means dressed reading value val) : m.repr value = val.repr :=
  means.reprWith (agrees.showListTo m.lists.size) (agrees.depth_le means)

/-- A value is displayed as its meaning. -/
theorem display (means : Means dressed reading value val) : m.display value = val.display := by
  cases means with
  | str text => rfl
  | bool value => exact agrees.repr (.bool value)
  | tuple all => exact agrees.repr (.tuple all)
  | list found => exact agrees.repr (.list found)
  | native kind => exact agrees.repr (.native kind)
  | closure dresses made becomes stands fits =>
    exact agrees.repr (.closure dresses made becomes stands fits)
  | nil => exact agrees.repr .nil
  | int value => exact agrees.repr (.int value)
  | identity ref => exact agrees.repr (.identity ref)

end Agrees

/-! ## Comparing -/

mutual

/-- Every value by name is the same as itself. -/
theorem Val.same_self : ∀ val : Val, val.same val = true
  | .nil => rfl
  | .bool _ | .int _ | .str _ | .native _ | .identity _ | .closure .. => by simp [Val.same]
  | .tuple items | .list items => by rw [Val.same, sameAll_self items]

theorem sameAll_self : ∀ vals : List Val, sameAll vals vals = true
  | [] => rfl
  | val :: rest => by rw [sameAll, Val.same_self val, sameAll_self rest, Bool.and_self]

end

/-- Only as many values can be the same. -/
theorem length_eq_of_sameAll (same : sameAll vals vals' = true) : vals.length = vals'.length := by
  induction vals generalizing vals' with
  | nil =>
    cases vals' with
    | nil => rfl
    | cons => cases same
  | cons val rest ih =>
    cases vals' with
    | nil => cases same
    | cons val' rest' =>
      rw [sameAll, Bool.and_eq_true] at same
      simp [ih same.2]

/-- Closures are told apart by the paths where they were made. -/
theorem Agrees.closure_beq (agrees : Agrees dressed globals reading m) {ref ref' : Nat}
    {path path' : Path} (found : reading.closures[ref]? = some path)
    (found' : reading.closures[ref']? = some path') : (ref == ref') = (path == path') := by
  by_cases same : ref = ref'
  · subst same
    cases found.symm.trans found'
    simp
  · have different : path ≠ path' := by
      rintro rfl
      exact same ((List.getElem?_inj (List.getElem?_eq_some_iff.mp found).1 agrees.distinct).mp
        (found.trans found'.symm))
    rw [beq_eq_false_iff_ne.mpr same, beq_eq_false_iff_ne.mpr different]

theorem ident_dress (signature : Signature) (base : Callable) :
    (dress dressed signature base).ident = base.ident := by
  rw [dress]
  split <;> rfl

/-- Lists nested less deep than this are compared as what they mean is. -/
def Reading.ComparesLists (reading : Reading) (sameList : Nat -> Nat -> Bool) (bound : Nat) :
    Prop :=
  ∀ left right vals vals', reading.lists[left]? = some vals -> reading.lists[right]? = some vals' ->
    depthAll vals < bound -> sameList left right = sameAll vals vals'

section Comparing

variable {sameList : Nat -> Nat -> Bool} {bound : Nat}

mutual

/-- Values are equal if what they mean is, if that holds of the lists in them. -/
theorem Means.equalWith (agrees : Agrees dressed globals reading m)
    (compares : reading.ComparesLists sameList bound) : ∀ {value value' : Value} {val val' : Val},
    Means dressed reading value val -> Means dressed reading value' val' -> val.depth ≤ bound ->
      value.equalWith sameList value' = val.same val'
  | _, _, _, _, .nil, means', _ | _, _, _, _, .bool _, means', _ | _, _, _, _, .int _, means', _
  | _, _, _, _, .str _, means', _ => by cases means' <;> rfl
  | _, _, _, _, .tuple all, means', deep => by
    cases means' with
    | tuple all' => rw [Value.equalWith, Val.same, all.equalItemsWith agrees compares all' deep]
    | _ => rfl
  | _, _, _, _, .list found, means', deep => by
    cases means' with
    | list found' => exact compares _ _ _ _ found found' deep
    | _ => rfl
  | _, _, _, _, .native kind, means', _ => by
    cases means' with
    | native kind' =>
      exact Bool.eq_iff_iff.mpr (by simp [Value.equalWith, Val.same, Callable.ident])
    | closure dresses _ _ _ _ => rw [Value.equalWith, dresses, ident_dress]; rfl
    | _ => rfl
  | _, _, _, _, .identity ref, means', _ => by
    cases means' with
    | identity ref' =>
      exact Bool.eq_iff_iff.mpr (by simp [Value.equalWith, Val.same, Callable.ident])
    | closure dresses _ _ _ _ => rw [Value.equalWith, dresses, ident_dress]; rfl
    | _ => rfl
  | _, _, _, _, .closure dresses found _ _ _, means', _ => by
    cases means' with
    | closure dresses' found' _ _ _ =>
      rw [Value.equalWith, Val.same, dresses, dresses', ident_dress, ident_dress,
        ← agrees.closure_beq found found']
      exact Bool.eq_iff_iff.mpr (by simp [Callable.ident])
    | native _ | identity _ => rw [Value.equalWith, dresses, ident_dress]; rfl
    | _ => rfl

theorem MeanAll.equalItemsWith (agrees : Agrees dressed globals reading m)
    (compares : reading.ComparesLists sameList bound) :
    ∀ {values values' : List Value} {vals vals' : List Val}, MeanAll dressed reading values vals ->
      MeanAll dressed reading values' vals' ->
      depthAll vals ≤ bound ->
        Trampoline.equalItemsWith sameList values values' = sameAll vals vals'
  | _, _, _, _, .nil, .nil, _ | _, _, _, _, .nil, .cons .., _ | _, _, _, _, .cons .., .nil, _ => rfl
  | _, _, _, _, .cons means others, .cons means' others', deep => by
    rw [depthAll, Nat.max_le] at deep
    rw [Trampoline.equalItemsWith, sameAll, means.equalWith agrees compares means' deep.1,
      others.equalItemsWith agrees compares others' deep.2]

end

end Comparing

namespace Agrees

variable (agrees : Agrees dressed globals reading m)
include agrees

/-- Lists compare as what they mean, if the depth suffices for their items. -/
theorem equalListsTo (depth left right : Nat) (vals vals' : List Val)
    (found : reading.lists[left]? = some vals) (found' : reading.lists[right]? = some vals')
    (deep : depthAll vals < depth) :
    Trampoline.equalListsTo m depth left right = sameAll vals vals' := by
  induction depth generalizing left right vals vals' with
  | zero => cases deep
  | succ depth ih =>
    have items := (agrees.items left vals found).1
    have items' := (agrees.items right vals' found').1
    have equal := items.equalItemsWith agrees ih items' (Nat.le_of_lt_succ deep)
    rw [Trampoline.equalListsTo, equal]
    by_cases same : left = right
    · subst same
      cases found.symm.trans found'
      simp [sameAll_self]
    · rw [beq_eq_false_iff_ne.mpr same, Bool.false_or]
      cases all : sameAll vals vals' with
      | false => exact Bool.and_false _
      | true =>
        have sizes : (m.items left).size = (m.items right).size := by
          rw [← Array.length_toList, ← Array.length_toList, items.length_eq, items'.length_eq,
            length_eq_of_sameAll all]
        simp [sizes]

/-- Two values are equal if their meanings are the same. -/
theorem equal (means : Means dressed reading value val)
    (means' : Means dressed reading value' val') :
    m.equal value value' = val.same val' := by
  refine means.equalWith agrees (agrees.equalListsTo _) means' ?_
  exact Nat.le_trans (agrees.depth_le means) (Nat.le_mul_self m.lists.size)

end Agrees

/-! ## Forcing -/

/-- Writing the items of a list back changes nothing. -/
theorem setItems_self (ref : Nat) :
    Run.setItems ref (m.items ref).toList m = some (.ok (), m) := by
  have kept : m.lists.setIfInBounds ref (m.items ref).toList.toArray = m.lists := by
    refine Array.ext (by simp) fun i less less' => ?_
    rw [Array.getElem_setIfInBounds less']
    split
    · next same =>
      subst same
      simp [Machine.items, less']
    · rfl
  rw [Run.setItems, Exec.modify, kept]

namespace Agrees

mutual

/-- Data is forced in depth without any change. -/
theorem full_forceDeep (agrees : Agrees dressed globals reading m) : ∀ (val : Val) {value : Value},
    Means dressed reading value val -> (Task.forceDeep value).full m = some (.ok value, m)
  | val, value, means => by
    rw [Task.full_eq, Task.plan, Plan.run_sub_bind (full_force means.ne_promise)]
    cases means with
    | tuple all => exact Plan.run_sub_bind (agrees.full_forceAll _ all)
    | list found =>
      refine (Plan.run_lift_bind rfl).trans ?_
      refine (Plan.run_sub_bind (agrees.full_forceAll _ (agrees.items _ _ found).1)).trans ?_
      exact Plan.run_lift_bind (setItems_self _)
    | _ => rfl

theorem full_forceAll (agrees : Agrees dressed globals reading m) :
    ∀ (vals : List Val) {values : List Value}, MeanAll dressed reading values vals ->
      (Task.forceAll values).full m = some (.ok values, m)
  | [], _, .nil => by
    rw [Task.full_eq]
    rfl
  | val :: vals, _, .cons means others => by
    rw [Task.full_eq, Task.plan, Plan.run_sub_bind (agrees.full_forceDeep val means)]
    exact Plan.run_sub_bind (agrees.full_forceAll vals others)

end

variable (agrees : Agrees dressed globals reading m)
include agrees

/-- Values with a meaning are shown as their meanings are displayed. -/
theorem full_shownDeep (all : MeanAll dressed reading values vals) :
    (Task.shownDeep values).full m = some (.ok (vals.map Val.display), m) := by
  induction values generalizing vals with
  | nil =>
    cases all
    rw [Task.full_eq]
    rfl
  | cons value rest ih =>
    cases all with
    | cons means others =>
      rw [Task.full_eq, Task.plan, Plan.run_sub_bind (agrees.full_forceDeep _ means)]
      refine (Plan.run_lift_bind rfl).trans ?_
      refine (Plan.run_sub_bind (ih others)).trans ?_
      rw [List.map_cons, ← agrees.display means]
      rfl

end Agrees

/-! ## Natives -/

section Natives

variable {total : Bool} {spared : Path -> Prop} {op : Native}

/-- The machine stays as it is. -/
def Alike {α : Type} (m : Machine) (left right : α) (m' : Machine) : Prop := left = right ∧ m' = m

/-- A value is taken for an integer if its meaning is. -/
theorem Means.int_follows (means : Means dressed reading value val) :
    Follows total m (Native.int op value) val.int? (Alike m) := by
  cases means with
  | int value => exact .pure ⟨rfl, rfl⟩
  | _ => exact .fail _

/-- Values are taken for integers if their meanings are. -/
theorem MeanAll.ints_follows (all : MeanAll dressed reading values vals) :
    Follows total m (Native.ints op values) (ints vals) (Alike m) := by
  induction values generalizing vals with
  | nil =>
    cases all
    exact .pure ⟨rfl, rfl⟩
  | cons value rest ih =>
    cases all with
    | cons means others =>
      refine means.int_follows.bind ?_
      rintro first _ _ ⟨rfl, rfl⟩
      refine (ih others).bind ?_
      rintro rest _ _ ⟨rfl, rfl⟩
      exact .pure ⟨rfl, rfl⟩

variable (agrees : Agrees dressed globals reading m) (all : MeanAll dressed reading values vals)
include agrees all

/-- Natives that compute with integers alone. -/
theorem Agrees.ints_follows {make : List Int64 -> Run Value} {makes : List Int64 -> Option Val}
    (made : ∀ ints, Follows total m (make ints) (makes ints)
      (Gives dressed globals spared reading m (Means dressed))) :
    Follows total m (Native.ints op values >>= make) (ints vals >>= makes)
      (Gives dressed globals spared reading m (Means dressed)) := by
  refine all.ints_follows.bind ?_
  rintro ints _ _ ⟨rfl, rfl⟩
  exact made ints

/-- Comparing integers follows the comparison of what they mean. -/
theorem Agrees.compareInts_follows (test : Int64 -> Int64 -> Bool) :
    Follows total m (Native.compareInts op test values) (compareInts test vals)
      (Gives dressed globals spared reading m (Means dressed)) := by
  refine all.two.1.int_follows.bind ?_
  rintro left _ _ ⟨rfl, rfl⟩
  refine all.two.2.int_follows.bind ?_
  rintro right _ _ ⟨rfl, rfl⟩
  exact .pure (.same agrees (.bool _))

/-- Dividing integers follows the division of what they mean, also where it fails. -/
theorem Agrees.divideInts_follows (divide : Int64 -> Int64 -> Int64) :
    Follows total m (Native.divideInts op divide values) (divideInts divide vals)
      (Gives dressed globals spared reading m (Means dressed)) := by
  refine all.two.2.int_follows.bind ?_
  rintro right _ _ ⟨rfl, rfl⟩
  refine .ite (fun _ => .fail _) fun _ => ?_
  refine all.two.1.int_follows.bind ?_
  rintro left _ _ ⟨rfl, rfl⟩
  exact .pure (.same agrees (.int _))

/-- Picking an item follows picking what it means, also beyond the end. -/
theorem Agrees.pick_follows (index : Int64) :
    Follows total m (Native.pick values index) (pick vals index)
      (Gives dressed globals spared reading m (Means dressed)) := by
  unfold Native.pick pick
  refine .ite (fun _ => .fail _) fun _ => ?_
  have found := all.getElem? index.toInt.toNat
  generalize values[index.toInt.toNat]? = item, vals[index.toInt.toNat]? = meant at found ⊢
  cases found with
  | some means => exact .pure (.same agrees means)
  | none => exact .fail _

omit all in
/-- The length of a list or tuple follows that of its meaning. -/
theorem Agrees.length_follows (means : Means dressed reading value val) :
    Follows total m (Native.length op value) (length val) (Alike m) := by
  cases means with
  | tuple items => exact .pure ⟨items.length_eq, rfl⟩
  | str text => exact .pure ⟨rfl, rfl⟩
  | list found =>
    have items := (agrees.items _ _ found).1
    exact .ends rfl ⟨Array.length_toList.symm.trans items.length_eq, rfl⟩
  | _ => exact .fail _

omit all in
/-- Reading an item of a list or tuple follows reading its meaning. -/
theorem Agrees.item_follows (means : Means dressed reading value val) (index : Int64) :
    Follows total m
      (match value with
        | .list ref => do
          let items ← Exec.read fun m : Machine => m.items ref
          Native.pick items.toList index
        | .tuple items => Native.pick items index
        | other => Exec.fail (.typeMismatch op [.list, .tuple] other.type))
      (val.items? >>= fun items => pick items index)
      (Gives dressed globals spared reading m (Means dressed)) := by
  cases means with
  | tuple items => exact agrees.pick_follows items index
  | list found => exact .step rfl (agrees.pick_follows (agrees.items _ _ found).1 index)
  | _ => exact .fail _

/-- The native that reads an item follows its meaning. -/
theorem Agrees.nth_follows :
    Follows total m (do
        let index ← Native.int op (Native.two values).2
        match (Native.two values).1 with
        | .list ref => do
          let items ← Exec.read fun m : Machine => m.items ref
          Native.pick items.toList index
        | .tuple items => Native.pick items index
        | other => Exec.fail (.typeMismatch op [.list, .tuple] other.type))
      (reckon .nth vals) (Gives dressed globals spared reading m (Means dressed)) := by
  refine Follows.bind all.two.2.int_follows ?_
  rintro index _ _ ⟨rfl, rfl⟩
  exact agrees.item_follows all.two.1 index

/-- Natives that neither force nor call. -/
theorem Agrees.compute_follows (isPure : op.isPure = true) {compute : Run Value}
    (computes : op.compute? values = some compute) : Follows total m compute (reckon op vals)
      (Gives dressed globals spared reading m (Means dressed)) := by
  have shallow := agrees.lists ▸ agrees.depthAll_le all
  cases op with
  | push => cases isPure
  | print | str | raise | assertEq | force | forceDeep | attempt => cases computes
  | add | mul =>
    cases computes
    exact agrees.ints_follows all fun ints => .pure (.same agrees (.int _))
  | sub =>
    cases computes
    refine agrees.ints_follows all fun ints => ?_
    match ints with
    | [] => exact .fail _
    | [only] => exact .pure (.same agrees (.int _))
    | first :: second :: rest => exact .pure (.same agrees (.int _))
  | div | rem =>
    cases computes
    exact agrees.divideInts_follows all _
  | lt | gt | le | ge =>
    cases computes
    exact agrees.compareInts_follows all _
  | eq =>
    cases computes
    have equal := agrees.equal all.two.1 all.two.2
    exact .ends rfl (.same agrees (equal ▸ .bool _))
  | not =>
    cases computes
    exact .pure (.same agrees (all.one.truthy ▸ .bool _))
  | list =>
    cases computes
    obtain ⟨agrees', moves⟩ := agrees.newList all shallow
    exact .ends rfl ⟨_, moves, agrees', .list (by simp [Reading.withList, agrees.lists])⟩
  | tuple =>
    cases computes
    exact .pure (.same agrees (.tuple all))
  | values =>
    cases computes
    exact .pure (.same agrees all.pack)
  | len =>
    cases computes
    refine (agrees.length_follows all.one).bind ?_
    rintro count _ _ ⟨rfl, rfl⟩
    exact .pure (.same agrees (.int _))
  | nth =>
    cases computes
    exact agrees.nth_follows all
  | typeOf =>
    cases computes
    exact .pure (.same agrees (all.one.type ▸ .str _))

/-- Natives compute with data what evaluation by name computes with its meaning. -/
theorem Agrees.applyNative_follows (isPure : op.isPure = true) :
    Follows total m (Task.applyNative op values).full (reckon op vals)
      (Gives dressed globals spared reading m (Means dressed)) := by
  cases computes : op.compute? values with
  | some compute =>
    rw [full_compute computes]
    exact agrees.compute_follows all isPure computes
  | none =>
    rw [Task.full_eq]
    cases op with
    | print | attempt => cases isPure
    | str =>
      refine .step (agrees.full_shownDeep all) ?_
      exact .pure (.same agrees (.str _))
    | raise =>
      refine .step (agrees.full_shownDeep all) ?_
      exact .stops fun _ _ => nofun
    | assertEq =>
      refine .step (agrees.full_forceDeep _ all.two.1) ?_
      refine .step (agrees.full_forceDeep _ all.two.2) ?_
      refine .step rfl ?_
      have equal := agrees.equal all.two.1 all.two.2
      by_cases same : (two vals).1.same (two vals).2 = true
      · simp only [equal, reckon, same, if_true]
        exact .pure (.same agrees .nil)
      · simp only [equal, reckon, same, Bool.false_eq_true, if_false]
        exact .step rfl (.stops fun _ _ => nofun)
    | force =>
      refine .ends ?_ (.same agrees all.one)
      exact Plan.run_sub_bind (full_force all.one.ne_promise)
    | forceDeep =>
      refine .ends ?_ (.same agrees all.one)
      exact Plan.run_sub_bind (agrees.full_forceDeep _ all.one)
    | _ => cases computes

end Natives

end Trampoline.ByName
