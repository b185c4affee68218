import Trampoline.Machine.Show
import Trampoline.Proofs.Spelling.Forms

/-!
# Data as text

Data is what is built from constants, tuples and lists, with no list inside itself. A nest of such
lists has a new list at each level, so it is never deeper than the number of lists in the machine,
and the text of the data shows all of it.
-/

namespace Trampoline

/-- What data is, wherever it is kept. -/
inductive Datum where
  | atom (value : Literal)
  | tuple (items : List Datum)
  | list (items : List Datum)
  deriving Inhabited

mutual

/-- How deep lists are nested in a datum. -/
def Datum.depth : Datum -> Nat
  | .atom _ => 0
  | .tuple items => depthOfAll items
  | .list items => depthOfAll items + 1

/-- How deep lists are nested in the deepest of several data. -/
def depthOfAll : List Datum -> Nat
  | [] => 0
  | first :: rest => max first.depth (depthOfAll rest)

end

mutual

/-- Whether a string in a datum has a character that is written by its code point. -/
def Datum.isCoded : Datum -> Bool
  | .atom (.str value) => value.toList.any Quoted.byCode
  | .atom _ => false
  | .tuple items | .list items => anyCoded items

/-- Whether a string in several data has a character that is written by its code point. -/
def anyCoded : List Datum -> Bool
  | [] => false
  | first :: rest => first.isCoded || anyCoded rest

end

mutual

/-- What a datum spells. -/
def Datum.spelling : Datum -> Spelling
  | .atom value => value.spelling
  | .tuple items => .list (.sym "tuple" :: spellingsOfData items)
  | .list items => .list (.sym "list" :: spellingsOfData items)

/-- What several data spell. -/
def spellingsOfData : List Datum -> List Spelling
  | [] => []
  | first :: rest => first.spelling :: spellingsOfData rest

end

/-! ## What data spells -/

section Spellings

variable {kind : Spelling -> Prop}

mutual

/-- What a datum spells can be scanned. -/
theorem Datum.fair : ∀ datum : Datum, datum.spelling.Fair
  | .atom value => by
    cases value <;> exact (Spelling.of_atom rfl).mpr rfl
  | .tuple items => Spelling.fair_list.mpr
    (List.forall_mem_cons.mpr ⟨(Spelling.of_atom rfl).mpr (by decide), fairAll items⟩)
  | .list items => Spelling.fair_list.mpr
    (List.forall_mem_cons.mpr ⟨(Spelling.of_atom rfl).mpr (by decide), fairAll items⟩)

theorem fairAll : ∀ (items : List Datum), ∀ s ∈ spellingsOfData items, s.Fair
  | [] => fun _ member => absurd member List.not_mem_nil
  | first :: rest => List.forall_mem_cons.mpr ⟨first.fair, fairAll rest⟩

end

theorem Spelling.clean_sym (name : String) : (Spelling.sym name).Clean := (of_atom rfl).mpr rfl

mutual

/-- A datum can be read back unless it is coded. -/
theorem Datum.clean_iff : ∀ datum : Datum, datum.spelling.Clean ↔ datum.isCoded = false
  | .atom value => by
    cases value with
    | str value => exact (Spelling.of_atom rfl).trans Bool.not_eq_eq_eq_not
    | _ => exact (Spelling.of_atom rfl).trans (iff_of_true rfl rfl)
  | .tuple items | .list items => by
    refine Spelling.clean_list.trans ?_
    rw [List.forall_mem_cons, and_iff_right (Spelling.clean_sym _), cleanAll_iff items,
      Datum.isCoded]

theorem cleanAll_iff : ∀ items : List Datum,
    (∀ s ∈ spellingsOfData items, s.Clean) ↔ anyCoded items = false
  | [] => by simp [spellingsOfData, anyCoded]
  | first :: rest => by
    simp [spellingsOfData, anyCoded, first.clean_iff, cleanAll_iff rest]

end

/-- No datum spells a keyword. -/
theorem Datum.spelling_ne_keyword (datum : Datum) (name : String) :
    datum.spelling ≠ .keyword name := by
  cases datum with
  | atom value => cases value <;> nofun
  | _ => nofun

end Spellings

/-! ## Data in a machine -/

mutual

/-- The value is the datum, with its lists in the machine. -/
inductive Machine.Holds (m : Machine) : Value -> Datum -> Prop where
  | nil : m.Holds .nil (.atom .nil)
  | bool (value : Bool) : m.Holds (.bool value) (.atom (.bool value))
  | int (value : Int64) : m.Holds (.int value) (.atom (.int value))
  | str (value : String) : m.Holds (.str value) (.atom (.str value))
  | tuple {items : List Value} {data : List Datum} (all : m.HoldsAll items data) :
      m.Holds (.tuple items) (.tuple data)
  | list {ref : Nat} {items : Array Value} {data : List Datum} (known : m.lists[ref]? = some items)
      (all : m.HoldsAll items.toList data) : m.Holds (.list ref) (.list data)

/-- The values are the data. -/
inductive Machine.HoldsAll (m : Machine) : List Value -> List Datum -> Prop where
  | nil : m.HoldsAll [] []
  | cons {value : Value} {values : List Value} {datum : Datum} {data : List Datum}
      (first : m.Holds value datum) (rest : m.HoldsAll values data) :
      m.HoldsAll (value :: values) (datum :: data)

end

namespace Machine

variable {m : Machine}

theorem holds_ofLiteral (value : Literal) : m.Holds (.ofLiteral value) (.atom value) := by
  cases value <;> constructor

variable {value : Value} {level ref depth : Nat} {datum : Datum} {showList : Nat -> String}
  {sameList : Nat -> Nat -> Bool}

theorem Holds.eq_ofLiteral {literal : Literal}
    (holds : m.Holds value (.atom literal)) : value = .ofLiteral literal := by
  cases holds <;> rfl

mutual

/-- A value is one datum at most. -/
theorem Holds.unique : ∀ {datum datum' : Datum} {value : Value}, m.Holds value datum ->
    m.Holds value datum' -> datum = datum'
  | .atom _, _, _, holds, holds' => by
    cases holds <;> cases holds' <;> rfl
  | .tuple _, _, _, .tuple all, .tuple all' => congrArg Datum.tuple (all.unique all')
  | .list _, _, _, .list known all, .list known' all' => by
    cases known.symm.trans known'
    exact congrArg Datum.list (all.unique all')

theorem HoldsAll.unique : ∀ {data data' : List Datum} {values : List Value},
    m.HoldsAll values data -> m.HoldsAll values data' -> data = data'
  | [], _, _, .nil, .nil => rfl
  | _ :: _, _, _, .cons first rest, .cons first' rest' => by
    rw [first.unique first', rest.unique rest']

end

/-- A list of the machine holds data with as many levels of lists inside it. -/
def HasLevel (m : Machine) (level : Nat) (ref : Nat) : Prop :=
  ∃ data, m.Holds (.list ref) (.list data) ∧ depthOfAll data = level

mutual

/-- Data has a list at each level. -/
theorem Holds.levels : ∀ {datum : Datum} {value : Value}, m.Holds value datum ->
    ∀ level < datum.depth, ∃ ref, m.HasLevel level ref
  | .atom _, _, _, _, less => absurd less (Nat.not_lt_zero _)
  | .tuple _, _, .tuple all, level, less => all.levels level less
  | .list data, _, .list known all, level, less => by
    rcases Nat.lt_succ_iff_lt_or_eq.mp less with inside | same
    · exact all.levels level inside
    · exact ⟨_, data, .list known all, same.symm⟩

theorem HoldsAll.levels : ∀ {data : List Datum} {values : List Value}, m.HoldsAll values data ->
    ∀ level < depthOfAll data, ∃ ref, m.HasLevel level ref
  | [], _, _, _, less => absurd less (Nat.not_lt_zero _)
  | datum :: data, _, .cons first rest, level, less => by
    have either : level < datum.depth ∨ level < depthOfAll data := by
      rw [depthOfAll] at less
      omega
    rcases either with less | less
    · exact first.levels level less
    · exact rest.levels level less

end

/-- A list is at one level only. -/
theorem HasLevel.unique {level' : Nat} (has : m.HasLevel level ref)
    (has' : m.HasLevel level' ref) : level = level' := by
  obtain ⟨data, holds, rfl⟩ := has
  obtain ⟨data', holds', rfl⟩ := has'
  cases holds.unique holds'
  rfl

/-- A list at any level exists. -/
theorem HasLevel.known (has : m.HasLevel level ref) : ref < m.lists.size := by
  obtain ⟨data, holds, -⟩ := has
  cases holds with
  | list known all => exact (Array.getElem?_eq_some_iff.mp known).1

/-- Lists are nested no deeper than there are lists: at each level there is another one. -/
theorem Holds.depth_le (holds : m.Holds value datum) : datum.depth ≤ m.lists.size := by
  have others (n : Nat) (below : n ≤ datum.depth) : ∃ refs : List Nat, refs.length = n ∧
      refs.Nodup ∧ ∀ ref ∈ refs, ∃ level < n, m.HasLevel level ref := by
    induction n with
    | zero => exact ⟨[], rfl, List.nodup_nil, fun _ member => absurd member List.not_mem_nil⟩
    | succ n ih =>
      obtain ⟨refs, count, distinct, lower⟩ := ih (Nat.le_of_succ_le below)
      obtain ⟨ref, has⟩ := holds.levels n below
      refine ⟨ref :: refs, congrArg Nat.succ count,
        List.nodup_cons.mpr ⟨fun member => ?_, distinct⟩,
        List.forall_mem_cons.mpr ⟨⟨n, Nat.lt_succ_self n, has⟩, fun other member => ?_⟩⟩
      · obtain ⟨level, less, has'⟩ := lower ref member
        exact Nat.ne_of_lt less (has'.unique has)
      · obtain ⟨level, less, has'⟩ := lower other member
        exact ⟨level, Nat.lt_succ_of_lt less, has'⟩
  obtain ⟨refs, count, distinct, lists⟩ := others datum.depth (Nat.le_refl _)
  have within : refs ⊆ List.range m.lists.size := by
    intro ref member
    obtain ⟨level, -, has⟩ := lists ref member
    exact List.mem_range.mpr has.known
  calc datum.depth = refs.length := count.symm
    _ ≤ (List.range m.lists.size).length := distinct.length_le_of_subset within
    _ = m.lists.size := List.length_range

/-! ### Its text -/

theorem items_eq {items : Array Value} (known : m.lists[ref]? = some items) :
    m.items ref = items := by
  rw [Machine.items, Array.getD_eq_getD_getElem?, known, Option.getD_some]

/-- A literal is shown as what it spells. -/
theorem toList_ofLiteral (value : Literal) (showList : Nat -> String) :
    ((Value.ofLiteral value).reprWith showList).toList = value.spelling.chars := by
  cases value with
  | bool value =>
    cases value <;> simp [Value.ofLiteral, Value.reprWith, Literal.spelling, Spelling.chars]
  | str value =>
    simp [Value.ofLiteral, Value.reprWith, Literal.spelling, Spelling.chars, Quoted.write_eq]
  | _ => rfl

/-- A list is shown as what it spells, at a depth that is enough for it. -/
def ShowsLists (m : Machine) (depth : Nat) (showList : Nat -> String) : Prop :=
  ∀ ref data, m.Holds (.list ref) (.list data) -> depthOfAll data < depth ->
    (showList ref).toList = (Datum.list data).spelling.chars

mutual

/-- A value that holds data is shown as what the data spells. -/
theorem Holds.reprWith (shows : m.ShowsLists depth showList) :
    ∀ {datum : Datum} {value : Value}, m.Holds value datum -> datum.depth ≤ depth ->
      (value.reprWith showList).toList = datum.spelling.chars
  | .atom literal, _, holds, _ => by
    rw [holds.eq_ofLiteral, toList_ofLiteral, Datum.spelling]
  | .tuple data, _, .tuple all, below => by
    simp [Value.reprWith, Datum.spelling, Spelling.chars, all.reprItemsWith shows below]
  | .list data, _, .list known all, below => shows _ data (.list known all) below

theorem HoldsAll.reprItemsWith (shows : m.ShowsLists depth showList) :
    ∀ {data : List Datum} {values : List Value},
    m.HoldsAll values data -> depthOfAll data ≤ depth ->
      (Trampoline.reprItemsWith showList values).toList = charsAfter (spellingsOfData data)
  | [], _, .nil, _ => rfl
  | datum :: data, _, .cons first rest, below => by
    have both : datum.depth ≤ depth ∧ depthOfAll data ≤ depth := Nat.max_le.mp below
    simp [Trampoline.reprItemsWith, spellingsOfData, charsAfter, first.reprWith shows both.1,
      rest.reprItemsWith shows both.2]

end

/-- Lists are shown as what the data in them spells, if the depth suffices. -/
theorem shows_lists (m : Machine) (depth : Nat) : m.ShowsLists depth (showListTo m depth) := by
  induction depth with
  | zero => exact fun _ _ _ less => absurd less (Nat.not_lt_zero _)
  | succ depth ih =>
    intro ref data holds less
    cases holds with
    | list known all =>
      have shown := all.reprItemsWith ih (Nat.le_of_lt_succ less)
      simp [showListTo, items_eq known, shown, Datum.spelling, Spelling.chars]

/-- Data is shown as the text that it spells. -/
theorem Holds.toList_repr (holds : m.Holds value datum) :
    (m.repr value).toList = datum.spelling.chars :=
  holds.reprWith (shows_lists m m.lists.size) holds.depth_le

/-! ### Equality -/

/-- Lists that hold the same data are found the same, at a depth that is enough for it. -/
def FindsSame (m : Machine) (depth : Nat) (sameList : Nat -> Nat -> Bool) : Prop :=
  ∀ left right data, m.Holds (.list left) (.list data) -> m.Holds (.list right) (.list data) ->
    depthOfAll data < depth -> sameList left right = true

mutual

/-- Values that hold data compare as the data does. -/
theorem Holds.equalWith (finds : m.FindsSame depth sameList) :
    ∀ {datum : Datum} {left right : Value},
    m.Holds left datum -> m.Holds right datum -> datum.depth ≤ depth ->
      left.equalWith sameList right = true
  | .atom literal, _, _, holds, holds', _ => by
    rw [holds.eq_ofLiteral, holds'.eq_ofLiteral]
    cases literal <;> simp [Value.ofLiteral, Value.equalWith]
  | .tuple _, _, _, .tuple all, .tuple all', below => all.equalItemsWith finds all' below
  | .list data, _, _, .list known all, .list known' all', below =>
    finds _ _ data (.list known all) (.list known' all') below

theorem HoldsAll.equalItemsWith (finds : m.FindsSame depth sameList) :
    ∀ {data : List Datum} {lefts rights : List Value},
    m.HoldsAll lefts data -> m.HoldsAll rights data -> depthOfAll data ≤ depth ->
      Trampoline.equalItemsWith sameList lefts rights = true
  | [], _, _, .nil, .nil, _ => rfl
  | datum :: data, _, _, .cons first rest, .cons first' rest', below => by
    have both : datum.depth ≤ depth ∧ depthOfAll data ≤ depth := Nat.max_le.mp below
    rw [Trampoline.equalItemsWith, first.equalWith finds first' both.1,
      rest.equalItemsWith finds rest' both.2, Bool.true_and]

end

theorem HoldsAll.length : ∀ {data : List Datum} {values : List Value}, m.HoldsAll values data ->
    values.length = data.length
  | [], _, .nil => rfl
  | _ :: _, _, .cons _ rest => congrArg Nat.succ rest.length

/-- Lists compare as the data in them does, if the depth suffices. -/
theorem finds_same (m : Machine) (depth : Nat) : m.FindsSame depth (equalListsTo m depth) := by
  induction depth with
  | zero => exact fun _ _ _ _ _ less => absurd less (Nat.not_lt_zero _)
  | succ depth ih =>
    intro left right data holds holds' less
    cases holds with
    | list known all =>
      cases holds' with
      | list known' all' =>
        have same := all.equalItemsWith ih all' (Nat.le_of_lt_succ less)
        have long : (m.items left).size = (m.items right).size := by
          rw [items_eq known, items_eq known', ← Array.length_toList, ← Array.length_toList,
            all.length, all'.length]
        simp [equalListsTo, items_eq known, items_eq known', same] at long ⊢
        exact .inr long

/-- Values that are the same data are equal. -/
theorem Holds.equal {left right : Value} (holds : m.Holds left datum)
    (holds' : m.Holds right datum) : m.equal left right = true :=
  holds.equalWith (finds_same m _) holds' (Nat.le_trans holds.depth_le (Nat.le_mul_self _))

end Machine

end Trampoline
