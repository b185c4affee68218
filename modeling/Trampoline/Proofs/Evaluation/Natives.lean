import Trampoline.Proofs.Evaluation.Storage

/-!
# Natives and disciplines

A native that only computes makes its result of its arguments and of the items of lists. So if these
may be stored in lists, then so may the result.
-/

namespace Trampoline

open Exec

namespace Discipline.Stores

variable {discipline : Discipline} {storage : Storage} {m : Machine}
variable (stores : discipline.Stores storage)
include stores

variable {values : List Value}

theorem pack (all : ∀ value ∈ values, storage.value value m) : storage.value (.pack values) m := by
  rcases values with _ | ⟨value, _ | ⟨second, rest⟩⟩
  · exact stores.nil
  · exact all value List.mem_cons_self
  · exact stores.tuple.mpr all

theorem one (all : ∀ value ∈ values, storage.value value m) :
    storage.value (Native.one values) m := by
  cases values with
  | nil => exact stores.nil
  | cons value rest => exact all value List.mem_cons_self

theorem two (all : ∀ value ∈ values, storage.value value m) :
    storage.value (Native.two values).1 m ∧ storage.value (Native.two values).2 m := by
  rcases values with _ | ⟨value, _ | ⟨second, rest⟩⟩
  · exact ⟨stores.nil, stores.nil⟩
  · exact ⟨all value List.mem_cons_self, stores.nil⟩
  · exact ⟨all value List.mem_cons_self, all second (List.mem_cons_of_mem _ List.mem_cons_self)⟩

variable (holds : discipline.holds m)
include holds

theorem intOf (op : Native) (value : Value) :
    Observes discipline m (Native.int op value) fun _ _ => True := by
  cases value with
  | int value => exact .pure holds trivial
  | _ => exact stores.failing holds rfl (by simp)

theorem intsOf (op : Native) (values : List Value) :
    Observes discipline m (Native.ints op values) fun _ _ => True := by
  induction values generalizing m with
  | nil => exact .pure holds trivial
  | cons value rest ih =>
    refine (stores.intOf holds op value).bind fun first m₁ reaches _ => ?_
    refine (ih reaches.holds).bind fun others m₂ later _ => ?_
    exact .pure later.holds trivial

theorem pick {items : List Value} (all : ∀ item ∈ items, storage.value item m) (index : Int64) :
    Observes discipline m (Native.pick items index) storage.value := by
  refine .ite (fun _ => stores.failing holds rfl (by simp)) fun _ => ?_
  cases found : items[index.toInt.toNat]? with
  | none => exact stores.failing holds rfl (by simp)
  | some value => exact .pure holds (all value (List.mem_of_getElem? found))

theorem compareInts (op : Native) (test : Int64 -> Int64 -> Bool) (args : List Value) :
    Observes discipline m (Native.compareInts op test args) storage.value := by
  refine (stores.intOf holds op _).bind fun left m₁ reaches _ => ?_
  refine (stores.intOf reaches.holds op _).bind fun right m₂ later _ => ?_
  exact .pure later.holds stores.bool

theorem divideInts (op : Native) (divide : Int64 -> Int64 -> Int64) (args : List Value) :
    Observes discipline m (Native.divideInts op divide args) storage.value := by
  refine (stores.intOf holds op _).bind fun right m₁ reaches _ => ?_
  refine .ite (fun _ => stores.failing reaches.holds rfl (by simp)) fun _ => ?_
  refine (stores.intOf reaches.holds op _).bind fun left m₂ later _ => ?_
  exact .pure later.holds stores.int

theorem difference (values : List Int64) :
    Observes discipline m (Native.difference values) storage.value := by
  rcases values with _ | ⟨first, _ | ⟨second, rest⟩⟩
  · exact stores.failing holds rfl (by simp)
  · exact .pure holds stores.int
  · exact .pure holds stores.int

theorem length (op : Native) (value : Value) :
    Observes discipline m (Native.length op value) fun _ _ => True := by
  cases value with
  | list ref => exact (Observes.read holds _).imp fun _ _ _ _ => trivial
  | tuple | str => exact .pure holds trivial
  | _ => exact stores.failing holds rfl (by simp)

/-- What a native computes of values that may be stored may be stored. -/
theorem compute {op : Native} {args : List Value} {run : Run Value}
    (all : ∀ arg ∈ args, storage.value arg m) (computes : op.compute? args = some run) :
    Observes discipline m run storage.value := by
  cases op <;> cases computes
  case add | mul =>
    refine (stores.intsOf holds _ _).bind fun values m' reaches _ => ?_
    exact .pure reaches.holds stores.int
  case sub =>
    refine (stores.intsOf holds _ _).bind fun values m' reaches _ => ?_
    exact stores.difference reaches.holds values
  case div | rem => exact stores.divideInts holds _ _ _
  case eq => exact (Observes.read holds _).imp fun _ _ _ known => known.1 ▸ stores.bool
  case lt | gt | le | ge => exact stores.compareInts holds _ _ _
  case not => exact .pure holds stores.bool
  case typeOf => exact .pure holds stores.str
  case tuple => exact .pure holds (stores.tuple.mpr all)
  case values => exact .pure holds (stores.pack all)
  case list => exact stores.newList holds all
  case len =>
    refine (stores.length holds _ _).bind fun count m' reaches _ => ?_
    exact .pure reaches.holds stores.int
  case push =>
    simp only
    split
    · refine (stores.pushItem holds _ (stores.two all).2).bind fun _ m' reaches _ => ?_
      exact .pure reaches.holds stores.list
    · exact stores.failing holds rfl (by simp)
  case nth =>
    have both := stores.two all
    refine (stores.intOf holds _ _).bind fun index m' reaches _ => ?_
    split
    · rename_i ref target
      refine (Observes.read reaches.holds _).bind fun items m'' later known => ?_
      obtain ⟨rfl, rfl⟩ := known
      exact stores.pick later.holds (stores.items later.holds ref) index
    · rename_i items target
      have ofTarget := (stores.lasts reaches.leads).value _ both.1
      rw [show (Native.two args).1 = .tuple items from target] at ofTarget
      exact stores.pick reaches.holds (stores.tuple.mp ofTarget) index
    · exact stores.failing reaches.holds rfl (by simp)

end Discipline.Stores

end Trampoline
