import Trampoline.Machine.Natives
import Trampoline.Proofs.Simulation.Rules

/-!
# Natives on related values

Related values look the same and are equal to the same values, each on its machine, and the natives
that only compute give related results.
-/

namespace Trampoline

variable {mode : Rewriting} {cells : Pairing} {world : World} {source target : Machine}

/-! ## Showing and comparing -/

mutual

/-- Related values have the same text if lists are shown alike. -/
theorem ValueRel.reprWith_eq {showList showList' : Nat -> String}
    (lists : ∀ ref, showList' ref = showList ref) {value value' : Value}
    (related : ValueRel mode cells value value') :
    value'.reprWith showList' = value.reprWith showList := by
  cases related with
  | tuple items => simp only [Value.reprWith, ValuesRel.reprItemsWith_eq lists items]
  | list => exact lists _
  | func same => simp only [Value.reprWith, same.label_eq]
  | @bool value => cases value <;> rfl
  | _ => rfl

theorem ValuesRel.reprItemsWith_eq {showList showList' : Nat -> String}
    (lists : ∀ ref, showList' ref = showList ref) {values values' : List Value}
    (related : ValuesRel mode cells values values') :
    reprItemsWith showList' values' = reprItemsWith showList values := by
  cases related with
  | nil => rfl
  | cons first rest =>
    simp only [reprItemsWith, ValueRel.reprWith_eq lists first,
      ValuesRel.reprItemsWith_eq lists rest]

end

namespace MachineRel

/-- Related machines show a list alike down to any depth. -/
theorem showListTo_eq (related : MachineRel mode world source target) (depth ref : Nat) :
    showListTo target depth ref = showListTo source depth ref := by
  induction depth generalizing ref with
  | zero => rfl
  | succ depth ih =>
    simp only [showListTo, ValuesRel.reprItemsWith_eq ih (related.items ref)]

variable {value value' : Value}

theorem repr_eq (related : MachineRel mode world source target)
    (same : ValueRel mode world.cells value value') : target.repr value' = source.repr value := by
  simp only [Machine.repr, ← related.lists]
  exact same.reprWith_eq (related.showListTo_eq _)

/-- Related values are displayed alike on related machines. -/
theorem display_eq (related : MachineRel mode world source target)
    (same : ValueRel mode world.cells value value') :
    target.display value' = source.display value := by
  cases same with
  | str => rfl
  | _ => exact related.repr_eq (by constructor <;> assumption)

end MachineRel

mutual

/-- Related values compare alike if lists do. -/
theorem ValueRel.equalWith_eq {sameList sameList' : Nat -> Nat -> Bool}
    (lists : ∀ left right, sameList' left right = sameList left right) {left left' : Value}
    (related : ValueRel mode cells left left') {right right' : Value}
    (other : ValueRel mode cells right right') :
    left'.equalWith sameList' right' = left.equalWith sameList right := by
  cases related with
  | tuple items =>
    cases other with
    | tuple others => exact ValuesRel.equalItemsWith_eq lists items others
    | _ => rfl
  | list =>
    cases other with
    | list => exact lists _ _
    | _ => rfl
  | func same =>
    cases other with
    | func same' => simp only [Value.equalWith, same.ident_eq, same'.ident_eq]
    | _ => rfl
  | _ => cases other <;> rfl

theorem ValuesRel.equalItemsWith_eq {sameList sameList' : Nat -> Nat -> Bool}
    (lists : ∀ left right, sameList' left right = sameList left right) {lefts lefts' : List Value}
    (related : ValuesRel mode cells lefts lefts') {rights rights' : List Value}
    (others : ValuesRel mode cells rights rights') :
    equalItemsWith sameList' lefts' rights' = equalItemsWith sameList lefts rights := by
  cases related with
  | nil => cases others <;> rfl
  | cons first rest =>
    cases others with
    | nil => rfl
    | cons first' rest' =>
      simp only [equalItemsWith, ValueRel.equalWith_eq lists first first',
        ValuesRel.equalItemsWith_eq lists rest rest']

end

namespace MachineRel

/-- Related machines compare lists alike down to any depth. -/
theorem equalListsTo_eq (related : MachineRel mode world source target) (depth left right : Nat) :
    equalListsTo target depth left right = equalListsTo source depth left right := by
  induction depth generalizing left right with
  | zero => rfl
  | succ depth ih =>
    have size (ref : Nat) : (target.items ref).size = (source.items ref).size := by
      simpa using (related.items ref).length_eq
    simp only [equalListsTo, size,
      (related.items left).equalItemsWith_eq ih (related.items right)]

/-- Related values compare alike on related machines. -/
theorem equal_eq (related : MachineRel mode world source target) {left left' right right' : Value}
    (same : ValueRel mode world.cells left left') (same' : ValueRel mode world.cells right right') :
    target.equal left' right' = source.equal left right := by
  simp only [Machine.equal, ← related.lists]
  exact same.equalWith_eq (related.equalListsTo_eq _) same'

end MachineRel

/-! ## Computing -/

/-- Related values are the same integer or none. -/
theorem ValueRel.int_eq {value value' : Value} (related : ValueRel mode cells value value')
    (op : Native) : Native.int op value' = Native.int op value := by
  have types := related.type_eq
  cases related <;> simp_all only [Native.int]

/-- Related values are the same integers or not all are integers. -/
theorem ValuesRel.ints_eq {values values' : List Value}
    (related : ValuesRel mode cells values values') (op : Native) :
    Native.ints op values' = Native.ints op values := by
  induction values generalizing values' with
  | nil => cases related; rfl
  | cons value rest ih =>
    cases related with
    | cons first same => simp only [Native.ints, first.int_eq op, ih same]

namespace Agree

/-- An argument that must be an integer. -/
theorem int (op : Native) (value : Value) (machines : MachineRel mode world source target) :
    Agree mode world (.lift (Native.int op value)) (.lift (Native.int op value)) source target
      (Gives mode Equal) := by
  cases value with
  | int value => exact Agree.pure ⟨rfl, machines⟩
  | _ => exact Agree.fail _ machines

/-- Arguments that must be integers. -/
theorem ints (op : Native) (values : List Value) (machines : MachineRel mode world source target) :
    Agree mode world (.lift (Native.ints op values)) (.lift (Native.ints op values)) source target
      (Gives mode Equal) := by
  induction values generalizing world source target with
  | nil => exact Agree.pure ⟨rfl, machines⟩
  | cons value rest ih =>
    simp only [Native.ints, Bounded.lift_bind, Bounded.lift_pure]
    refine Agree.bind (Agree.int op value machines) ?_
    rintro later first _ source target _ ⟨rfl, machines⟩
    refine Agree.bind (ih machines) ?_
    rintro later others _ source target _ ⟨rfl, machines⟩
    exact Agree.pure ⟨rfl, machines⟩

/-- What is computed from integers is the same on both sides. -/
theorem ofInts (op : Native) {values values' : List Value}
    (related : ValuesRel mode world.cells values values')
    (machines : MachineRel mode world source target) (next : List Int64 -> Run Value)
    (after : ∀ later ints source target, MachineRel mode later source target ->
      Agree mode later (.lift (next ints)) (.lift (next ints)) source target
        (Gives mode (ValueRel mode))) :
    Agree mode world (.lift (Native.ints op values >>= next))
      (.lift (Native.ints op values' >>= next)) source target (Gives mode (ValueRel mode)) := by
  rw [related.ints_eq op, Bounded.lift_bind]
  refine Agree.bind (Agree.ints op values machines) ?_
  rintro later _ values source target _ ⟨rfl, machines⟩
  exact after later values source target machines

/-- Differences are computed alike. -/
theorem difference (ints : List Int64) (machines : MachineRel mode world source target) :
    Agree mode world (.lift (Native.difference ints)) (.lift (Native.difference ints)) source target
      (Gives mode (ValueRel mode)) := by
  match ints with
  | [] => exact Agree.fail _ machines
  | [only] => exact Agree.pure ⟨.int, machines⟩
  | first :: second :: rest => exact Agree.pure ⟨.int, machines⟩

variable {args args' : List Value}

/-- Integers are compared alike. -/
theorem compareInts (op : Native) (test : Int64 -> Int64 -> Bool)
    (related : ValuesRel mode world.cells args args')
    (machines : MachineRel mode world source target) :
    Agree mode world (.lift (Native.compareInts op test args))
      (.lift (Native.compareInts op test args')) source target (Gives mode (ValueRel mode)) := by
  obtain ⟨left, right⟩ := ValueRel.two related
  simp only [Native.compareInts, left.int_eq, right.int_eq, Bounded.lift_bind, Bounded.lift_pure]
  refine Agree.bind (Agree.int op _ machines) ?_
  rintro later first _ source target _ ⟨rfl, machines⟩
  refine Agree.bind (Agree.int op _ machines) ?_
  rintro later second _ source target _ ⟨rfl, machines⟩
  exact Agree.pure ⟨.bool, machines⟩

/-- Integers are divided alike, also by zero. -/
theorem divideInts (op : Native) (divide : Int64 -> Int64 -> Int64)
    (related : ValuesRel mode world.cells args args')
    (machines : MachineRel mode world source target) :
    Agree mode world (.lift (Native.divideInts op divide args))
      (.lift (Native.divideInts op divide args')) source target (Gives mode (ValueRel mode)) := by
  obtain ⟨left, right⟩ := ValueRel.two related
  simp only [Native.divideInts, left.int_eq, right.int_eq, Bounded.lift_bind]
  refine Agree.bind (Agree.int op _ machines) ?_
  rintro later _ divisor source target _ ⟨rfl, machines⟩
  by_cases zero : divisor = 0
  · simp only [if_pos zero]
    exact Agree.fail _ machines
  · simp only [if_neg zero, Bounded.lift_bind, Bounded.lift_pure]
    refine Agree.bind (Agree.int op _ machines) ?_
    rintro later _ dividend source target _ ⟨rfl, machines⟩
    exact Agree.pure ⟨.int, machines⟩

theorem items (ref : Nat) (machines : MachineRel mode world source target) :
    Agree mode world (.lift (Exec.read fun m : Machine => m.items ref))
      (.lift (Exec.read fun m : Machine => m.items ref)) source target
      (Gives mode fun cells items items' => ValuesRel mode cells items.toList items'.toList) :=
  Agree.ends (World.le_refl world) rfl rfl ⟨machines.items ref, machines⟩

/-- Related items are picked alike, also beyond the end. -/
theorem pick {items items' : List Value} (related : ValuesRel mode world.cells items items')
    (index : Int64) (machines : MachineRel mode world source target) :
    Agree mode world (.lift (Native.pick items index)) (.lift (Native.pick items' index)) source
      target (Gives mode (ValueRel mode)) := by
  simp only [Native.pick, related.length_eq]
  by_cases negative : index < 0
  · simp only [if_pos negative]
    exact Agree.fail _ machines
  · simp only [if_neg negative]
    rcases related.getElem? index.toInt.toNat with ⟨none, none'⟩ | ⟨value, value', at?, at?', same⟩
    · simp only [none, none']
      exact Agree.fail _ machines
    · simp only [at?, at?']
      exact Agree.pure ⟨same, machines⟩

theorem length (op : Native) {value value' : Value}
    (related : ValueRel mode world.cells value value')
    (machines : MachineRel mode world source target) :
    Agree mode world (.lift (Native.length op value)) (.lift (Native.length op value')) source
      target (Gives mode Equal) := by
  have types := related.type_eq
  cases related with
  | @list ref =>
    have size : (target.items ref).size = (source.items ref).size := by
      simpa using (machines.items ref).length_eq
    exact Agree.ends (World.le_refl world) rfl rfl ⟨size, machines⟩
  | tuple items => exact Agree.pure ⟨items.length_eq, machines⟩
  | str => exact Agree.pure ⟨rfl, machines⟩
  | func same =>
    simp only [Native.length, types]
    exact Agree.fail _ machines
  | _ => exact Agree.fail _ machines

/-- The natives that only compute. -/
theorem compute (op : Native) (related : ValuesRel mode world.cells args args')
    (machines : MachineRel mode world source target) {run : Run Value}
    (computes : op.compute? args = some run) :
    ∃ run', op.compute? args' = some run' ∧
      Agree mode world (.lift run) (.lift run') source target (Gives mode (ValueRel mode)) := by
  obtain ⟨left, right⟩ := ValueRel.two related
  have one := ValueRel.one related
  have order := World.le_refl world
  cases op <;> simp only [Native.compute?, Option.some.injEq, reduceCtorEq] at computes <;>
    subst computes <;> refine ⟨_, rfl, ?_⟩
  case add | mul =>
    exact Agree.ofInts _ related machines _ fun _ _ _ _ machines => Agree.pure ⟨.int, machines⟩
  case sub =>
    exact Agree.ofInts _ related machines _ fun _ ints _ _ machines =>
      Agree.difference ints machines
  case div | rem => exact Agree.divideInts _ _ related machines
  case lt | gt | le | ge => exact Agree.compareInts _ _ related machines
  case eq =>
    refine Agree.ends order rfl rfl ⟨?_, machines⟩
    show ValueRel mode world.cells (.bool (source.equal _ _)) (.bool (target.equal _ _))
    rw [machines.equal_eq left right]
    exact .bool
  case not =>
    rw [one.truthy_eq]
    exact Agree.pure ⟨.bool, machines⟩
  case list =>
    refine Agree.ends order rfl rfl ⟨?_, machines.newList related⟩
    rw [machines.lists]
    exact .list
  case tuple => exact Agree.pure ⟨.tuple related, machines⟩
  case values => exact Agree.pure ⟨.pack related, machines⟩
  case push =>
    generalize Native.two args = two at left right
    generalize Native.two args' = two' at left right
    obtain ⟨list, item⟩ := two
    obtain ⟨list', item'⟩ := two'
    have types := left.type_eq
    cases left with
    | list => exact Agree.ends order rfl rfl ⟨.list, machines.pushItem _ right⟩
    | func same =>
      simp only [types]
      exact Agree.fail _ machines
    | _ => exact Agree.fail _ machines
  case len =>
    simp only [Bounded.lift_bind, Bounded.lift_pure]
    refine Agree.bind (Agree.length _ one machines) ?_
    rintro later _ count source target _ ⟨rfl, machines⟩
    exact Agree.pure ⟨.int, machines⟩
  case nth =>
    generalize Native.two args = two at left right
    generalize Native.two args' = two' at left right
    obtain ⟨list, index⟩ := two
    obtain ⟨list', index'⟩ := two'
    simp only [right.int_eq, Bounded.lift_bind]
    refine Agree.bind (Agree.int _ _ machines) ?_
    rintro later _ index source target grown ⟨rfl, machines⟩
    have types := left.type_eq
    cases left with
    | @list ref =>
      simp only [Bounded.lift_bind]
      refine Agree.bind (Agree.items ref machines) ?_
      rintro later items items' source target _ ⟨same, machines⟩
      exact Agree.pick same _ machines
    | tuple items => exact Agree.pick (items.mono grown.cells) _ machines
    | func same =>
      simp only [types]
      exact Agree.fail _ machines
    | _ => exact Agree.fail _ machines
  case typeOf =>
    rw [one.type_eq]
    exact Agree.pure ⟨.str, machines⟩

end Agree

end Trampoline
