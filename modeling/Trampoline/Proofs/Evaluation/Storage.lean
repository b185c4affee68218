import Trampoline.Machine.Eval
import Trampoline.Proofs.Evaluation.Disciplines

/-!
# What is stored

Evaluation stores values in globals, cells, lists and caches, and promises and jumps in records of
their own. One write changes one of these stores, so if all that is stored is of some kind then it
stays so as long as what is written is of that kind.

Many a discipline holds as long as all that is stored is of some kind. Then every step of the
machine observes it that stores nothing or what is of the kind, and what is found is of the kind.
-/

namespace Trampoline

/-! ## What is stored -/

section Storage

/-- The kinds of what may be stored on a machine. -/
structure Storage where
  /-- What globals stand for, lists hold and caches answer. -/
  value : Value -> Machine -> Prop
  /-- What cells hold. -/
  content : Value -> Machine -> Prop
  promise : Promise -> Machine -> Prop
  jump : Jump -> Machine -> Prop

/-- What may be stored on the first machine may be stored on the second. -/
structure Storage.Lasts (storage : Storage) (m m' : Machine) : Prop where
  value : ∀ value, storage.value value m -> storage.value value m'
  content : ∀ value, storage.content value m -> storage.content value m'
  promise : ∀ promise, storage.promise promise m -> storage.promise promise m'
  jump : ∀ jump, storage.jump jump m -> storage.jump jump m'

namespace Machine

variable {storage : Storage} {m m' : Machine}

/-- All that is stored may be stored. -/
structure Keeps (storage : Storage) (m : Machine) : Prop where
  globals : ∀ named ∈ m.globals, storage.value named.2 m
  cells : ∀ value ∈ m.cells, storage.content value m
  lists : ∀ items ∈ m.lists, ∀ item ∈ items, storage.value item m
  promises : ∀ promise ∈ m.promises, storage.promise promise m
  jumps : ∀ jump, .pending jump ∈ m.jumps -> storage.jump jump m
  caches : ∀ entries ∈ m.caches, ∀ entry ∈ entries, storage.value entry.value m

/-! ## Finding what is stored -/

variable {α : Type}

/-- What is at a place of an array is in it, or else is the default. -/
theorem getD_mem_or (items : Array α) (ref : Nat) (default : α) :
    items.getD ref default ∈ items ∨ items.getD ref default = default := by
  rw [Array.getD_eq_getD_getElem?]
  cases found : items[ref]? with
  | none => exact .inr rfl
  | some item => exact .inl (Array.mem_of_getElem? found)

/-- What is in a changed array was in it, or is the change of what was. -/
theorem mem_modify {items : Array α} {ref : Nat} {change : α -> α} {item : α}
    (member : item ∈ items.modify ref change) :
    item ∈ items ∨ ∃ old ∈ items, item = change old := by
  obtain ⟨index, inside, rfl⟩ := Array.mem_iff_getElem.mp member
  rw [Array.getElem_modify]
  split
  · exact .inr ⟨_, Array.getElem_mem _, rfl⟩
  · exact .inl (Array.getElem_mem _)

/-- What is among the globals after a definition was there, or is what is defined. -/
theorem mem_setGlobal {name : String} {value : Value} {named : String × Value} :
    ∀ {globals : List (String × Value)}, named ∈ setGlobal name value globals ->
      named ∈ globals ∨ named = (name, value)
  | [], member => .inr (List.mem_singleton.mp member)
  | first :: rest, member => by
    rw [setGlobal] at member
    split at member
    · rcases List.mem_cons.mp member with rfl | member
      · exact .inr rfl
      · exact .inl (List.mem_cons_of_mem _ member)
    · rcases List.mem_cons.mp member with rfl | member
      · exact .inl List.mem_cons_self
      · exact (mem_setGlobal member).imp_left (List.mem_cons_of_mem _)

namespace Keeps

variable (keeps : m.Keeps storage)
include keeps

/-- The globals hold what may be stored. -/
theorem global {name : String} {value : Value} (found : m.global? name = some value) :
    storage.value value m := by
  obtain ⟨before, after, same, -⟩ := List.lookup_eq_some_iff.mp found
  refine keeps.globals (name, value) ?_
  rw [same]
  exact List.mem_append_right _ List.mem_cons_self

/-- So do cells. -/
theorem cell (nil : storage.content .nil m) (ref : CellRef) : storage.content (m.cell ref) m := by
  rcases getD_mem_or m.cells ref .nil with member | same
  · exact keeps.cells _ member
  · rwa [Machine.cell, same]

/-- So do lists. -/
theorem items (ref : Nat) : ∀ item ∈ (m.items ref).toList, storage.value item m := by
  intro item member
  have member := Array.mem_toList_iff.mp member
  rcases getD_mem_or m.lists ref #[] with inside | same
  · exact keeps.lists _ inside item member
  · rw [Machine.items, same] at member
    exact absurd member (Array.not_mem_empty _)

/-- So do promises. -/
theorem promise (forcing : storage.promise .forcing m) (ref : Nat) :
    storage.promise (m.promise ref) m := by
  rcases getD_mem_or m.promises ref .forcing with member | same
  · exact keeps.promises _ member
  · rwa [Machine.promise, same]

/-- So do jumps that wait. -/
theorem jump {ref : Nat} {jump : Jump} (waits : m.jump ref = .pending jump) :
    storage.jump jump m := by
  rcases getD_mem_or m.jumps ref .consumed with member | same
  · exact keeps.jumps jump (waits ▸ member)
  · cases same.symm.trans waits

/-- So do caches. -/
theorem cached {cache : Nat} {key : List MemoKey} {entry : CacheEntry}
    (found : (m.caches.getD cache []).find? (fun entry => sameKeys entry.key key) = some entry) :
    storage.value entry.value m := by
  have member := List.mem_of_find?_eq_some found
  rcases getD_mem_or m.caches cache [] with inside | same
  · exact keeps.caches _ inside entry member
  · rw [same] at member
    cases member

end Keeps

/-! ## Writing -/

/-- What is new on the second machine may be stored on the first. -/
structure Adds (storage : Storage) (m m' : Machine) : Prop where
  globals : ∀ named ∈ m'.globals, named ∈ m.globals ∨ storage.value named.2 m
  cells : ∀ value ∈ m'.cells, value ∈ m.cells ∨ storage.content value m
  lists : ∀ items ∈ m'.lists, items ∈ m.lists ∨ ∀ item ∈ items, storage.value item m
  promises : ∀ promise ∈ m'.promises, promise ∈ m.promises ∨ storage.promise promise m
  jumps : ∀ jump, .pending jump ∈ m'.jumps -> .pending jump ∈ m.jumps ∨ storage.jump jump m
  caches : ∀ entries ∈ m'.caches, entries ∈ m.caches ∨
    ∀ entry ∈ entries, storage.value entry.value m

/-- Whatever was stored before may still be stored. -/
theorem Adds.keeps (adds : Adds storage m m') (lasts : storage.Lasts m m')
    (keeps : m.Keeps storage) : m'.Keeps storage where
  globals named member :=
    lasts.value _ ((adds.globals named member).elim (keeps.globals named) id)
  cells value member := lasts.content _ ((adds.cells value member).elim (keeps.cells value) id)
  lists items member item inside :=
    lasts.value _ ((adds.lists items member).elim (keeps.lists items) id item inside)
  promises promise member :=
    lasts.promise _ ((adds.promises promise member).elim (keeps.promises promise) id)
  jumps jump member := lasts.jump _ ((adds.jumps jump member).elim (keeps.jumps jump) id)
  caches entries member entry inside :=
    lasts.value _ ((adds.caches entries member).elim (keeps.caches entries) id entry inside)

/-- The stores are the same. -/
theorem Adds.of_same (globals : m'.globals = m.globals) (cells : m'.cells = m.cells)
    (lists : m'.lists = m.lists) (promises : m'.promises = m.promises) (jumps : m'.jumps = m.jumps)
    (caches : m'.caches = m.caches) : Adds storage m m' where
  globals _ member := .inl (globals ▸ member)
  cells _ member := .inl (cells ▸ member)
  lists _ member := .inl (lists ▸ member)
  promises _ member := .inl (promises ▸ member)
  jumps _ member := .inl (jumps ▸ member)
  caches _ member := .inl (caches ▸ member)

/-! Each write changes one of the stores. -/

namespace Adds

theorem refl (m : Machine) : Adds storage m m := of_same rfl rfl rfl rfl rfl rfl

/-- New globals are added if they may be stored. -/
theorem of_globals {globals : List (String × Value)}
    (new : ∀ named ∈ globals, named ∈ m.globals ∨ storage.value named.2 m) :
    Adds storage m { m with globals } :=
  { refl m with globals := new }

/-- So are new cells. -/
theorem of_cells {cells : Array Value}
    (new : ∀ value ∈ cells, value ∈ m.cells ∨ storage.content value m) :
    Adds storage m { m with cells } :=
  { refl m with cells := new }

/-- So are new lists. -/
theorem of_lists {lists : Array (Array Value)}
    (new : ∀ items ∈ lists, items ∈ m.lists ∨ ∀ item ∈ items, storage.value item m) :
    Adds storage m { m with lists } :=
  { refl m with lists := new }

/-- So are new promises. -/
theorem of_promises {promises : Array Promise}
    (new : ∀ promise ∈ promises, promise ∈ m.promises ∨ storage.promise promise m) :
    Adds storage m { m with promises } :=
  { refl m with promises := new }

/-- So are new jumps. -/
theorem of_jumps {jumps : Array JumpRecord}
    (new : ∀ jump, .pending jump ∈ jumps -> .pending jump ∈ m.jumps ∨ storage.jump jump m) :
    Adds storage m { m with jumps } :=
  { refl m with jumps := new }

/-- So are new entries of caches. -/
theorem of_caches {caches : Array (List CacheEntry)}
    (new : ∀ entries ∈ caches, entries ∈ m.caches ∨
      ∀ entry ∈ entries, storage.value entry.value m) :
    Adds storage m { m with caches } :=
  { refl m with caches := new }

section New

variable {α : Type} {fine : α -> Prop} {items : Array α} {new : α}

/-- What is pushed is fine if it is. -/
theorem pushed (isFine : fine new) : ∀ item ∈ items.push new, item ∈ items ∨ fine item :=
  fun _ member => (Array.mem_push.mp member).elim .inl fun same => .inr (same ▸ isFine)

/-- What replaces another is fine if it is. -/
theorem replaced {ref : Nat} (isFine : fine new) :
    ∀ item ∈ items.setIfInBounds ref new, item ∈ items ∨ fine item :=
  fun _ member => (Array.mem_or_eq_of_mem_setIfInBounds member).elim .inl
    fun same => .inr (same ▸ isFine)

end New

end Adds

end Machine

end Storage

/-! ## Disciplines of what is stored -/

section Stores

open Exec

/-- What the discipline holds is that the machine stores what it may. Values may be stored unless
they are functions, or tuples of what may not. -/
structure Discipline.Stores (discipline : Discipline) (storage : Storage) : Prop where
  holds : ∀ {m}, discipline.holds m ↔ m.Keeps storage
  lasts : ∀ {m m'}, discipline.leads m m' -> storage.Lasts m m'
  /-- Nothing hangs on anything but cells and points. -/
  leads : ∀ {m m' : Machine}, m'.cells = m.cells -> m'.points = m.points -> discipline.leads m m'
  fails : ∀ {error m}, error.isEscape = false -> error ≠ .escapeOutsideExtent ->
    discipline.fails error m
  nil : ∀ {m}, storage.value .nil m
  bool : ∀ {value m}, storage.value (.bool value) m
  int : ∀ {value m}, storage.value (.int value) m
  str : ∀ {value m}, storage.value (.str value) m
  list : ∀ {ref m}, storage.value (.list ref) m
  tuple : ∀ {items m}, storage.value (.tuple items) m ↔ ∀ item ∈ items, storage.value item m
  /-- What may be stored elsewhere may be stored in cells. -/
  content : ∀ {value m}, storage.value value m -> storage.content value m
  forcing : ∀ {m}, storage.promise .forcing m

namespace Discipline.Stores

variable {discipline : Discipline} {storage : Storage} {α : Type} {m m' : Machine} {value : Value}
variable (stores : discipline.Stores storage)
include stores

variable (holds : discipline.holds m)
include holds

/-! ## Steps that store nothing -/

/-- What adds only what may be stored observes the discipline, if it leads on. -/
theorem adds (leads : discipline.leads m m') (adds : Machine.Adds storage m m') :
    discipline.Reaches m m' :=
  ⟨leads, stores.holds.mpr (adds.keeps (stores.lasts leads) (stores.holds.mp holds))⟩

variable {post : α -> Machine -> Prop}

/-- A step that stores nothing observes the discipline. -/
theorem silent {run : Run α} {answer : α}
    (ran : run m = some (.ok answer, m')) (globals : m'.globals = m.globals)
    (cells : m'.cells = m.cells) (lists : m'.lists = m.lists)
    (promises : m'.promises = m.promises) (jumps : m'.jumps = m.jumps)
    (caches : m'.caches = m.caches) (points : m'.points = m.points) (known : post answer m') :
    Observes discipline m run post :=
  .of_eq ran (stores.adds holds (stores.leads cells points)
    (.of_same globals cells lists promises jumps caches)) known

/-- An error that is no escape observes the discipline. -/
theorem failing {error : EvalError}
    (noEscape : error.isEscape = false) (inside : error ≠ .escapeOutsideExtent) :
    Observes discipline m (fail error) post := .fail holds (stores.fails noEscape inside)

theorem tell (event : Event) : Observes discipline m (Run.tell event) fun _ _ => True :=
  stores.silent holds rfl rfl rfl rfl rfl rfl rfl rfl trivial

theorem newClosure : Observes discipline m Run.newClosure fun _ _ => True :=
  stores.silent holds rfl rfl rfl rfl rfl rfl rfl rfl trivial

theorem newHandle : Observes discipline m Run.newHandle fun _ _ => True :=
  stores.silent holds rfl rfl rfl rfl rfl rfl rfl rfl trivial

theorem newContinuation : Observes discipline m Run.newContinuation fun _ _ => True :=
  stores.silent holds rfl rfl rfl rfl rfl rfl rfl rfl trivial

theorem newIdentity : Observes discipline m Run.newIdentity fun callable _ =>
    ∃ ref, callable = .identity ref :=
  stores.silent holds rfl rfl rfl rfl rfl rfl rfl rfl ⟨_, rfl⟩

theorem write (text : String) : Observes discipline m (Run.write text) fun _ _ => True := by
  intro outcome ends
  simp only [Run.write] at ends
  split at ends
  · exact stores.failing holds rfl (by simp) outcome ends
  · cases ends
    exact ⟨stores.adds holds (stores.leads rfl rfl) (.of_same rfl rfl rfl rfl rfl rfl), trivial⟩

theorem noKwargs (func : String) (kwargs : Kwargs) :
    Observes discipline m (noKwargs func kwargs) fun _ m' => m' = m := by
  rcases kwargs with _ | ⟨⟨keyword, value⟩, rest⟩
  · exact .pure holds rfl
  · exact stores.failing holds rfl (by simp)

theorem callable (value : Value) : Observes discipline m value.callable fun callable m' =>
    value = .func callable ∧ m' = m := by
  cases value with
  | func callable => exact .pure holds ⟨rfl, rfl⟩
  | _ => exact stores.failing holds rfl (by simp)

/-! ## Cells and globals -/

theorem newCell (leads : discipline.leads m { m with cells := m.cells.push value })
    (content : storage.content value m) :
    Observes discipline m (Run.newCell value) fun ref m' =>
      ref < m'.cells.size ∧ m'.cell ref = value := by
  refine .of_eq rfl (stores.adds holds leads (.of_cells (Machine.Adds.pushed content))) ⟨?_, ?_⟩
  · simp
  · simp [Machine.cell, Array.getD_eq_getD_getElem?]

theorem setCell (ref : CellRef)
    (leads : discipline.leads m { m with cells := m.cells.setIfInBounds ref value })
    (content : storage.content value m) :
    Observes discipline m (Run.setCell ref value) fun _ _ => True :=
  .of_eq rfl (stores.adds holds leads (.of_cells (Machine.Adds.replaced content))) trivial

/-- A global is given what may be stored. -/
theorem define (name : String) (ofValue : storage.value value m) :
    discipline.Reaches m (m.define name value) :=
  stores.adds holds (stores.leads rfl rfl) (.of_globals fun _ member =>
    (Machine.mem_setGlobal member).elim .inl fun same => .inr (same ▸ ofValue))

theorem defineToplevel (name : String) (ofValue : storage.value value m) :
    Observes discipline m (defineToplevel name value) fun _ _ => True := by
  refine (stores.tell holds _).bind fun _ m' reaches _ => ?_
  have ofValue := (stores.lasts reaches.leads).value value ofValue
  exact .of_eq rfl (stores.define reaches.holds name ofValue) trivial

/-- A name stands for what is in its cell if it has one, else for what a global may stand for. -/
theorem lookup (name : String) (frame : Frame) :
    Observes discipline m (Body.run (Body.lookup name) frame) fun value m' => m' = m ∧
      match frame.env.lookup name with
      | some ref => value = m.cell ref
      | none => storage.value value m := by
  intro outcome ends
  simp only [Body.run, Body.lookup] at ends
  cases known : frame.env.lookup name with
  | some ref =>
    simp only [known] at ends
    cases ends
    exact ⟨⟨discipline.refl m, holds⟩, rfl, rfl⟩
  | none =>
    cases found : m.global? name with
    | some value =>
      simp only [known, found] at ends
      cases ends
      exact ⟨⟨discipline.refl m, holds⟩, rfl, (stores.holds.mp holds).global found⟩
    | none =>
      simp only [known, found] at ends
      exact stores.failing holds rfl (by simp) outcome ends

/-- A name is given what may be stored, in its cell or globally. -/
theorem assign (name : String) (frame : Frame) (ofValue : storage.value value m)
    (leads : ∀ ref, frame.env.lookup name = some ref ->
      discipline.leads m { m with cells := m.cells.setIfInBounds ref value }) :
    Observes discipline m (Body.run (Body.assign name value) frame) fun _ _ => True := by
  intro outcome ends
  simp only [Body.run, Body.assign] at ends
  cases known : frame.env.lookup name with
  | some ref =>
    simp only [known] at ends
    exact stores.setCell holds ref (leads ref known) (stores.content ofValue) outcome ends
  | none =>
    cases found : m.global? name with
    | some old =>
      simp only [known, found] at ends
      cases ends
      exact ⟨stores.define holds name ofValue, trivial⟩
    | none =>
      simp only [known, found] at ends
      exact stores.failing holds rfl (by simp) outcome ends

/-! ## Lists -/

theorem items (ref : Nat) : ∀ item ∈ (m.items ref).toList, storage.value item m :=
  (stores.holds.mp holds).items ref

theorem newList {items : List Value} (all : ∀ item ∈ items, storage.value item m) :
    Observes discipline m (Run.newList items) storage.value :=
  .of_eq rfl (stores.adds holds (stores.leads rfl rfl)
    (.of_lists (Machine.Adds.pushed fun item member => all item (List.mem_toArray.mp member))))
    stores.list

theorem setItems (ref : Nat) {items : List Value} (all : ∀ item ∈ items, storage.value item m) :
    Observes discipline m (Run.setItems ref items) fun _ _ => True :=
  .of_eq rfl (stores.adds holds (stores.leads rfl rfl)
    (.of_lists (Machine.Adds.replaced fun item member => all item (List.mem_toArray.mp member))))
    trivial

/-- What may be stored is pushed onto a list. -/
theorem pushItem (ref : Nat) (ofValue : storage.value value m) :
    Observes discipline m (Run.pushItem ref value) fun _ _ => True := by
  have keeps := stores.holds.mp holds
  refine .of_eq rfl (stores.adds holds (stores.leads rfl rfl) (.of_lists fun other member => ?_))
    trivial
  rcases Machine.mem_modify member with old | ⟨items, listed, rfl⟩
  · exact .inl old
  · refine .inr fun item inside => ?_
    rcases Array.mem_push.mp inside with old | rfl
    · exact keeps.lists items listed item old
    · exact ofValue

/-! ## Promises and jumps -/

theorem promise (ref : Nat) : storage.promise (m.promise ref) m :=
  (stores.holds.mp holds).promise stores.forcing ref

theorem newPromise {thunk : Thunk} (ofThunk : storage.promise (.pending thunk) m) :
    Observes discipline m (Run.newPromise thunk) fun value _ => ∃ ref, value = .promise ref :=
  .of_eq rfl (stores.adds holds (stores.leads rfl rfl)
    (.of_promises (Machine.Adds.pushed ofThunk))) ⟨_, rfl⟩

theorem setPromise (ref : Nat) {promise : Promise} (ofPromise : storage.promise promise m) :
    Observes discipline m (Run.setPromise ref promise) fun _ _ => True :=
  .of_eq rfl (stores.adds holds (stores.leads rfl rfl)
    (.of_promises (Machine.Adds.replaced ofPromise))) trivial

theorem newJump {jump : Jump} (ofJump : storage.jump jump m) :
    Observes discipline m (Run.newJump jump) fun value _ => ∃ ref, value = .jump ref :=
  .of_eq rfl (stores.adds holds (stores.leads rfl rfl) (.of_jumps fun _ member =>
    (Array.mem_push.mp member).elim .inl
      fun same => .inr (JumpRecord.pending.inj same ▸ ofJump))) ⟨_, rfl⟩

/-- A jump that is taken is one that may be stored. -/
theorem takeJump (ref : Nat) : Observes discipline m (Run.takeJump ref) storage.jump := by
  intro outcome ends
  simp only [Run.takeJump] at ends
  split at ends
  · exact stores.failing holds rfl (by simp) outcome ends
  · rename_i jump waits
    cases ends
    have reaches : discipline.Reaches m { m with jumps := m.jumps.setIfInBounds ref .consumed } :=
      stores.adds holds (stores.leads rfl rfl) (.of_jumps fun _ member =>
        (Array.mem_or_eq_of_mem_setIfInBounds member).imp_right fun same =>
          JumpRecord.noConfusion same)
    have ofJump := (stores.holds.mp holds).jump waits
    exact ⟨reaches, (stores.lasts reaches.leads).jump jump ofJump⟩

/-! ## Caches -/

theorem newCache : Observes discipline m Run.newCache fun _ _ => True :=
  .of_eq rfl (stores.adds holds (stores.leads rfl rfl)
    (.of_caches (Machine.Adds.pushed (List.forall_mem_nil _)))) trivial

theorem cached (cache : Nat) (key : List MemoKey) :
    Observes discipline m (Run.cached? cache key) fun hit m' =>
      ∀ value ∈ hit, storage.value value m' := by
  refine .of_eq rfl ⟨discipline.refl m, holds⟩ fun value hit => ?_
  obtain ⟨entry, found, rfl⟩ := Option.map_eq_some_iff.mp hit
  exact (stores.holds.mp holds).cached found

theorem remember (cache : Nat) (key : List MemoKey) (ofValue : storage.value value m) :
    Observes discipline m (Run.remember cache key value) fun _ _ => True := by
  have keeps := stores.holds.mp holds
  refine .of_eq rfl (stores.adds holds (stores.leads rfl rfl)
    (.of_caches fun entries member => ?_)) trivial
  rcases Machine.mem_modify member with old | ⟨older, listed, rfl⟩
  · exact .inl old
  · exact .inr (List.forall_mem_cons.mpr ⟨ofValue, keeps.caches older listed⟩)

end Discipline.Stores

end Stores

end Trampoline
