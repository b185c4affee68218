import Mathlib.Data.Finset.Card
import Mathlib.Data.Finset.Prod
import Mathlib.Data.Finset.Range
import Mathlib.Logic.Relation
import Mathlib.Order.Monotone.Basic
import Trampoline.Proofs.Transport.Machines

/-!
# What mirroring machines show

Machines that mirror each other compare values in the same way, and show a value in the same way if
they have as many lists or if no list within it contains itself: then it is shown to its ground,
whatever the number of lists is. Comparisons come to their end in any case: what is found to be the
same at some depth stays so, and there are only so many pairs of lists.
-/

namespace Trampoline

mutual

/-- The lists that a value refers to, in tuples as well. -/
def Value.lists : Value -> List Nat
  | .list ref => [ref]
  | .tuple items => listsOfAll items
  | .nil | .bool _ | .int _ | .str _ | .func _ | .jump _ | .promise _ => []

/-- The lists that several values refer to. -/
def listsOfAll : List Value -> List Nat
  | [] => []
  | value :: rest => value.lists ++ listsOfAll rest

end

namespace Machine

/-- The one list refers to the other. -/
def Nests (m : Machine) (outer inner : Nat) : Prop := inner ∈ listsOfAll (m.items outer).toList

/-- No list within the value contains itself. -/
def Grounded (m : Machine) (value : Value) : Prop :=
  ∀ ref ∈ value.lists, ∀ inner, Relation.ReflTransGen m.Nests ref inner ->
    ¬ Relation.TransGen m.Nests inner inner

end Machine

/-! ## Texts and comparisons depend on the lists inside -/

section Inside

variable {show' show'' : Nat -> String} {same same' : Nat -> Nat -> Bool}

mutual

/-- A value is shown by how its lists are shown. -/
theorem Value.reprWith_congr : ∀ {value : Value}, (∀ ref ∈ value.lists, show' ref = show'' ref) ->
    value.reprWith show' = value.reprWith show''
  | .list ref, known => by simpa only [Value.reprWith] using known ref List.mem_cons_self
  | .tuple items, known => by
    have inside : reprItemsWith show' items = reprItemsWith show'' items :=
      reprItemsWith_congr known
    simp only [Value.reprWith, inside]
  | .bool true, _ | .bool false, _ | .nil, _ | .int _, _ | .str _, _ | .func _, _ | .jump _, _
  | .promise _, _ => by simp only [Value.reprWith]

theorem reprItemsWith_congr : ∀ {values : List Value},
    (∀ ref ∈ listsOfAll values, show' ref = show'' ref) ->
    reprItemsWith show' values = reprItemsWith show'' values
  | [], _ => rfl
  | value :: rest, known => by
    obtain ⟨first, others⟩ := List.forall_mem_append.mp known
    simp only [reprItemsWith, Value.reprWith_congr first, reprItemsWith_congr others]

end

mutual

/-- Values compare by how their lists do. -/
theorem Value.equalWith_congr : ∀ {left right : Value},
    (∀ ref ∈ left.lists, ∀ ref' ∈ right.lists, same ref ref' = same' ref ref') ->
    left.equalWith same right = left.equalWith same' right
  | .list ref, .list ref', known => by
    simpa only [Value.equalWith] using known ref List.mem_cons_self ref' List.mem_cons_self
  | .tuple lefts, .tuple rights, known => by
    have inside : equalItemsWith same lefts rights = equalItemsWith same' lefts rights :=
      equalItemsWith_congr known
    simp only [Value.equalWith, inside]
  | .nil, right, _ | .bool _, right, _ | .int _, right, _ | .str _, right, _ | .func _, right, _
  | .jump _, right, _ | .promise _, right, _ => by cases right <;> simp only [Value.equalWith]
  | .list _, .nil, _ | .list _, .bool _, _ | .list _, .int _, _ | .list _, .str _, _
  | .list _, .func _, _ | .list _, .jump _, _ | .list _, .promise _, _ | .list _, .tuple _, _
  | .tuple _, .nil, _ | .tuple _, .bool _, _ | .tuple _, .int _, _ | .tuple _, .str _, _
  | .tuple _, .func _, _ | .tuple _, .jump _, _ | .tuple _, .promise _, _ | .tuple _,
      .list _, _ => by
    simp only [Value.equalWith]

theorem equalItemsWith_congr : ∀ {lefts rights : List Value},
    (∀ ref ∈ listsOfAll lefts, ∀ ref' ∈ listsOfAll rights, same ref ref' = same' ref ref') ->
    equalItemsWith same lefts rights = equalItemsWith same' lefts rights
  | [], [], _ | [], _ :: _, _ | _ :: _, [], _ => by simp only [equalItemsWith]
  | left :: lefts, right :: rights, known => by
    have first : left.equalWith same right = left.equalWith same' right :=
      Value.equalWith_congr fun ref member ref' member' =>
        known ref (List.mem_append_left _ member) ref' (List.mem_append_left _ member')
    have others : equalItemsWith same lefts rights = equalItemsWith same' lefts rights :=
      equalItemsWith_congr fun ref member ref' member' =>
        known ref (List.mem_append_right _ member) ref' (List.mem_append_right _ member')
    simp only [equalItemsWith, first, others]

end

mutual

/-- If more lists compare as equal, more values do. -/
theorem Value.equalWith_mono : ∀ {left right : Value},
    (∀ ref ref', same ref ref' = true -> same' ref ref' = true) ->
    left.equalWith same right = true -> left.equalWith same' right = true
  | .list ref, .list ref', more, equal => by
    simp only [Value.equalWith] at equal ⊢
    exact more ref ref' equal
  | .tuple lefts, .tuple rights, more, equal => by
    simp only [Value.equalWith] at equal ⊢
    exact equalItemsWith_mono more equal
  | .nil, right, _, equal | .bool _, right, _, equal | .int _, right, _, equal
  | .str _, right, _, equal | .func _, right, _, equal | .jump _, right, _, equal
  | .promise _, right, _, equal => by
    cases right <;> exact equal
  | .list _, .nil, _, equal | .list _, .bool _, _, equal | .list _, .int _, _, equal
  | .list _, .str _, _, equal | .list _, .func _, _, equal | .list _, .jump _, _, equal
  | .list _, .promise _, _, equal | .list _, .tuple _, _, equal | .tuple _, .nil, _, equal
  | .tuple _, .bool _, _, equal | .tuple _, .int _, _, equal | .tuple _, .str _, _, equal
  | .tuple _, .func _, _, equal | .tuple _, .jump _, _, equal | .tuple _, .promise _, _, equal
  | .tuple _, .list _, _, equal => by
    simp only [Value.equalWith, Bool.false_eq_true] at equal

theorem equalItemsWith_mono : ∀ {lefts rights : List Value},
    (∀ ref ref', same ref ref' = true -> same' ref ref' = true) ->
    equalItemsWith same lefts rights = true -> equalItemsWith same' lefts rights = true
  | [], [], _, equal | [], _ :: _, _, equal | _ :: _, [], _, equal => equal
  | left :: lefts, right :: rights, more, equal => by
    simp only [equalItemsWith, Bool.and_eq_true] at equal ⊢
    exact ⟨Value.equalWith_mono more equal.1, equalItemsWith_mono more equal.2⟩

end

end Inside

/-! ## Lists are shown to their ground -/

section Ground

variable {m : Machine} {known : Nat -> Prop}

theorem none_above {ref : Nat} : ∀ outer ∈ (∅ : Finset Nat), outer < m.lists.size ∧
    Relation.TransGen m.Nests outer ref := by simp

/-- The lists that contain a list that does not contain itself are fewer than all. -/
theorem card_above_lt {above : Finset Nat} {ref : Nat}
    (founded : ¬ Relation.TransGen m.Nests ref ref)
    (inside : ref < m.lists.size) (below : ∀ outer ∈ above, outer < m.lists.size ∧
      Relation.TransGen m.Nests outer ref) : above.card < m.lists.size := by
  have fresh : ref ∉ above := fun member => founded (below ref member).2
  have all : insert ref above ⊆ Finset.range m.lists.size := by
    intro outer member
    rcases Finset.mem_insert.mp member with rfl | member
    · exact Finset.mem_range.mpr inside
    · exact Finset.mem_range.mpr (below outer member).1
  have count := Finset.card_le_card all
  rw [Finset.card_insert_of_notMem fresh, Finset.card_range] at count
  exact count

/-- One list deeper, there is one list more above. -/
theorem insert_above {above : Finset Nat} {ref inner : Nat}
    (founded : ¬ Relation.TransGen m.Nests ref ref)
    (inside : ref < m.lists.size) (below : ∀ outer ∈ above, outer < m.lists.size ∧
      Relation.TransGen m.Nests outer ref) (nests : m.Nests ref inner) :
    (insert ref above).card = above.card + 1 ∧ ∀ outer ∈ insert ref above,
      outer < m.lists.size ∧ Relation.TransGen m.Nests outer inner := by
  refine ⟨Finset.card_insert_of_notMem fun member => founded (below ref member).2, ?_⟩
  intro outer member
  rcases Finset.mem_insert.mp member with rfl | member
  · exact ⟨inside, .single nests⟩
  · exact ⟨(below outer member).1, (below outer member).2.tail nests⟩

variable (closed : ∀ {outer inner}, known outer -> m.Nests outer inner -> known inner)
  (bounded : ∀ {ref}, known ref -> ref < m.lists.size)
include closed bounded

/-- The text of a list is the same for all depths that reach to its ground. -/
theorem showListTo_ground (founded : ∀ {ref}, known ref -> ¬ Relation.TransGen m.Nests ref ref)
    {above : Finset Nat} {ref : Nat} (isKnown : known ref)
    (below : ∀ outer ∈ above, outer < m.lists.size ∧ Relation.TransGen m.Nests outer ref)
    {depth depth' : Nat} (deep : m.lists.size ≤ depth + above.card)
    (deep' : m.lists.size ≤ depth' + above.card) :
    showListTo m depth ref = showListTo m depth' ref := by
  have fewer := card_above_lt (founded isKnown) (bounded isKnown) below
  induction depth generalizing above ref depth' with
  | zero => omega
  | succ depth ih =>
    cases depth' with
    | zero => omega
    | succ depth' =>
      simp only [showListTo]
      congr 2
      refine reprItemsWith_congr fun inner nests => ?_
      obtain ⟨count, deeper⟩ := insert_above (founded isKnown) (bounded isKnown) below nests
      have inKnown := closed isKnown nests
      exact ih inKnown deeper (by omega) (by omega)
        (card_above_lt (founded inKnown) (bounded inKnown) deeper)

omit closed bounded in
/-- What is the same down to some depth is the same one list deeper. -/
theorem equalListsTo_deeper (depth left right : Nat)
    (equal : equalListsTo m depth left right = true) :
    equalListsTo m (depth + 1) left right = true := by
  induction depth generalizing left right with
  | zero =>
    rw [equalListsTo] at equal
    rw [equalListsTo, equal, Bool.true_or]
  | succ depth ih =>
    rw [equalListsTo] at equal ⊢
    simp only [Bool.or_eq_true, Bool.and_eq_true] at equal ⊢
    exact equal.imp_right (And.imp_right (equalItemsWith_mono ih))

open Classical in
/-- The pairs of known lists that are the same down to some depth. -/
noncomputable def Machine.equalPairs (m : Machine) (known : Nat -> Prop) (depth : Nat) :
    Finset (Nat × Nat) :=
  (Finset.range m.lists.size ×ˢ Finset.range m.lists.size).filter fun pair =>
    known pair.1 ∧ known pair.2 ∧ equalListsTo m depth pair.1 pair.2 = true

omit closed in
theorem mem_equalPairs {depth : Nat} {pair : Nat × Nat} : pair ∈ m.equalPairs known depth ↔
    known pair.1 ∧ known pair.2 ∧ equalListsTo m depth pair.1 pair.2 = true := by
  simp only [Machine.equalPairs, Finset.mem_filter, Finset.mem_product, Finset.mem_range]
  exact and_iff_right_of_imp fun member => ⟨bounded member.1, bounded member.2.1⟩

omit closed in
theorem equalPairs_mono : Monotone (m.equalPairs known) := by
  refine monotone_nat_of_le_succ fun depth pair member => ?_
  rw [mem_equalPairs bounded] at member ⊢
  exact ⟨member.1, member.2.1, equalListsTo_deeper _ _ _ member.2.2⟩

/-- If one depth finds no more pairs, no depth does. -/
theorem equalPairs_stays {depth : Nat}
    (same : m.equalPairs known depth = m.equalPairs known (depth + 1)) :
    m.equalPairs known (depth + 1) = m.equalPairs known (depth + 2) := by
  have finds {left right : Nat} (isKnown : known left) (isKnown' : known right) :
      equalListsTo m depth left right = equalListsTo m (depth + 1) left right := by
    have both := Finset.ext_iff.mp same (left, right)
    simp only [mem_equalPairs bounded, isKnown, isKnown', true_and] at both
    exact Bool.eq_iff_iff.mpr both
  ext ⟨left, right⟩
  simp only [mem_equalPairs bounded]
  refine and_congr_right fun isKnown => and_congr_right fun isKnown' => ?_
  rw [equalListsTo, equalListsTo.eq_def m (depth + 2)]
  dsimp only
  rw [equalItemsWith_congr fun ref nests ref' nests' =>
    finds (closed isKnown nests) (closed isKnown' nests')]

/-- Two lists compare in the same way at all depths from the number of pairs on. -/
theorem equalListsTo_ground {left right depth : Nat} (isKnown : known left) (isKnown' : known right)
    (deep : m.lists.size * m.lists.size ≤ depth) :
    equalListsTo m depth left right = equalListsTo m (m.lists.size * m.lists.size) left right := by
  have mono := equalPairs_mono bounded
  have few (depth : Nat) : (m.equalPairs known depth).card ≤ m.lists.size * m.lists.size := by
    rw [← Finset.card_range m.lists.size, ← Finset.card_product]
    refine Finset.card_le_card fun pair member => ?_
    obtain ⟨isKnown, isKnown', -⟩ := (mem_equalPairs bounded).mp member
    exact Finset.mem_product.mpr
      ⟨Finset.mem_range.mpr (bounded isKnown), Finset.mem_range.mpr (bounded isKnown')⟩
  have counts : (m.equalPairs known depth).card =
      (m.equalPairs known (m.lists.size * m.lists.size)).card := by
    refine Nat.stabilises_of_monotone
      (fun _ _ below => Finset.card_le_card (mono below)) few ?_ deep
    intro depth same
    have equal := Finset.eq_of_subset_of_card_le (mono (Nat.le_succ depth)) same.ge
    rw [equalPairs_stays closed bounded equal]
  have same :=
    Finset.ext_iff.mp (Finset.eq_of_subset_of_card_le (mono deep) counts.le) (left, right)
  simp only [mem_equalPairs bounded, isKnown, isKnown', true_and] at same
  exact (Bool.eq_iff_iff.mpr same).symm

end Ground

/-! ## Mirroring machines -/

section Correspond

variable {α β : Type} {rel : α -> β -> Prop} {left : List α} {right : List β}
  (same : List.Forall₂ rel left right)
include same

/-- Of lists that are related one by one, each item on the left has one on the right. -/
theorem forall₂_left : ∀ a ∈ left, ∃ b, rel a b ∧ b ∈ right := by
  induction same with
  | nil => simp
  | cons first _ ih =>
    refine List.forall_mem_cons.mpr ⟨⟨_, first, List.mem_cons_self⟩, fun a member => ?_⟩
    obtain ⟨b, known, member⟩ := ih a member
    exact ⟨b, known, List.mem_cons_of_mem _ member⟩

/-- Of lists that are related one by one, each item on the right has one on the left. -/
theorem forall₂_right : ∀ b ∈ right, ∃ a, rel a b ∧ a ∈ left := by
  induction same with
  | nil => simp
  | cons first _ ih =>
    refine List.forall_mem_cons.mpr ⟨⟨_, first, List.mem_cons_self⟩, fun b member => ?_⟩
    obtain ⟨a, known, member⟩ := ih b member
    exact ⟨a, known, List.mem_cons_of_mem _ member⟩

end Correspond

variable {mirror : Mirror} {reflection : Reflection}

mutual

/-- Values that mirror each other refer to lists that stand for each other. -/
theorem Value.Mirrors.lists {value value' : Value}
    (mirrors : value.Mirrors mirror reflection value') :
    List.Forall₂ (reflection.pairs .list) value.lists value'.lists := by
  cases mirrors with
  | tuple items => exact ValuesMirror.lists items
  | list known => exact .cons known .nil
  | _ => exact .nil

theorem ValuesMirror.lists {values values' : List Value}
    (mirrors : ValuesMirror mirror reflection values values') :
    List.Forall₂ (reflection.pairs .list) (listsOfAll values) (listsOfAll values') := by
  cases mirrors with
  | nil => exact .nil
  | cons first rest => exact List.rel_append (Value.Mirrors.lists first) (ValuesMirror.lists rest)

end

namespace Machine.Mirrors

variable {m m' : Machine} (mirrors : m.Mirrors mirror reflection m')
include mirrors

/-- Lists that stand for each other are shown alike down to any depth. -/
theorem showListTo_eq (depth : Nat) : ∀ a b, reflection.pairs .list a b ->
    showListTo m' depth b = showListTo m depth a := by
  induction depth with
  | zero => exact fun _ _ _ => rfl
  | succ depth ih =>
    intro a b known
    simp only [showListTo, (mirrors.items known).reprItemsWith_eq ih]

/-- Lists that stand for each other compare alike down to any depth. -/
theorem equalListsTo_eq (depth : Nat) : ∀ a b a' b', reflection.pairs .list a b ->
    reflection.pairs .list a' b' -> equalListsTo m' depth b b' = equalListsTo m depth a a' := by
  induction depth with
  | zero => exact fun _ _ _ _ known known' => mirrors.oneToOne.beq_eq known known'
  | succ depth ih =>
    intro a b a' b' known known'
    have size := (mirrors.items known).length_eq
    have size' := (mirrors.items known').length_eq
    simp only [Array.length_toList] at size size'
    simp only [equalListsTo, mirrors.oneToOne.beq_eq known known', size, size',
      ValuesMirror.equalItemsWith_eq mirrors.oneToOne ih (mirrors.items known)
        (mirrors.items known')]

/-- What a list refers to has a counterpart in what its counterpart refers to. -/
theorem nests {outer inner outer' : Nat} (known : reflection.pairs .list outer outer')
    (nests : m.Nests outer inner) : ∃ inner', reflection.pairs .list inner inner' ∧
      m'.Nests outer' inner' :=
  forall₂_left (mirrors.items known).lists inner nests

theorem nests' {outer outer' inner' : Nat} (known : reflection.pairs .list outer outer')
    (nests : m'.Nests outer' inner') : ∃ inner, reflection.pairs .list inner inner' ∧
      m.Nests outer inner :=
  forall₂_right (mirrors.items known).lists inner' nests

/-- What a list nests at any depth on the right has a counterpart on the left. -/
theorem nestsAll' {outer outer' inner' : Nat} (known : reflection.pairs .list outer outer')
    (nests : Relation.TransGen m'.Nests outer' inner') :
    ∃ inner, reflection.pairs .list inner inner' ∧
      Relation.TransGen m.Nests outer inner := by
  induction nests with
  | single nests =>
    obtain ⟨inner, same, nests⟩ := mirrors.nests' known nests
    exact ⟨inner, same, .single nests⟩
  | tail _ nests ih =>
    obtain ⟨middle, same, above⟩ := ih
    obtain ⟨inner, same, nests⟩ := mirrors.nests' same nests
    exact ⟨inner, same, above.tail nests⟩

/-- A list with a counterpart contains itself if the counterpart does. -/
theorem nests_self {a b : Nat} (known : reflection.pairs .list a b)
    (nests : Relation.TransGen m'.Nests b b) : Relation.TransGen m.Nests a a := by
  obtain ⟨a', known', nests⟩ := mirrors.nestsAll' known nests
  obtain rfl := (mirrors.oneToOne.eq_iff known known').mpr rfl
  exact nests

/-- Values that mirror each other are shown as the same text. -/
theorem repr_eq {value value' : Value} (comparable : mirror.sized = true ∨ m.Grounded value)
    (same : value.Mirrors mirror reflection value') : m'.repr value' = m.repr value := by
  rcases comparable with sized | grounded
  · refine same.reprWith_eq fun a b known => ?_
    rw [mirrors.sized sized]
    exact mirrors.showListTo_eq _ a b known
  · -- down from the value, all lists have counterparts and none contains itself
    let within (ref : Nat) : Prop := ∃ top ∈ value.lists, Relation.ReflTransGen m.Nests top ref
    let known (ref : Nat) : Prop := within ref ∧ ∃ b, reflection.pairs .list ref b
    let known' (ref : Nat) : Prop := ∃ a, within a ∧ reflection.pairs .list a ref
    have closed {outer inner : Nat} : known outer -> m.Nests outer inner -> known inner := by
      rintro ⟨⟨top, member, above⟩, b, pair⟩ nests
      obtain ⟨inner', pair, -⟩ := mirrors.nests pair nests
      exact ⟨⟨top, member, above.tail nests⟩, inner', pair⟩
    have closed' {outer inner : Nat} : known' outer -> m'.Nests outer inner -> known' inner := by
      rintro ⟨a, ⟨top, member, above⟩, pair⟩ nests
      obtain ⟨inner', pair, nests⟩ := mirrors.nests' pair nests
      exact ⟨inner', ⟨top, member, above.tail nests⟩, pair⟩
    have bounded {ref : Nat} : known ref -> ref < m.lists.size :=
      fun ⟨_, _, pair⟩ => (mirrors.bounded pair).1
    have bounded' {ref : Nat} : known' ref -> ref < m'.lists.size :=
      fun ⟨_, _, pair⟩ => (mirrors.bounded pair).2
    have founded {ref : Nat} : known ref -> ¬ Relation.TransGen m.Nests ref ref :=
      fun ⟨⟨top, member, above⟩, _⟩ => grounded top member ref above
    have founded' {ref : Nat} : known' ref -> ¬ Relation.TransGen m'.Nests ref ref :=
      fun ⟨_, ⟨top, member, above⟩, pair⟩ nests =>
        grounded top member _ above (mirrors.nests_self pair nests)
    have deep := Nat.le_max_left m.lists.size m'.lists.size
    have deep' := Nat.le_max_right m.lists.size m'.lists.size
    have ground :
      m.repr value = value.reprWith (showListTo m (max m.lists.size m'.lists.size)) := by
      refine Value.reprWith_congr fun a member => ?_
      obtain ⟨b, pair⟩ := forall₂_left same.lists a member
      exact showListTo_ground closed bounded founded ⟨⟨a, member, .refl⟩, b, pair.1⟩ none_above
        (by simp) (Nat.le_add_right_of_le deep)
    have ground' : m'.repr value' =
        value'.reprWith (showListTo m' (max m.lists.size m'.lists.size)) := by
      refine Value.reprWith_congr fun b member => ?_
      obtain ⟨a, pair, member⟩ := forall₂_right same.lists b member
      exact showListTo_ground closed' bounded' founded' ⟨a, ⟨a, member, .refl⟩, pair⟩ none_above
        (by simp) (Nat.le_add_right_of_le deep')
    rw [ground, ground']
    exact same.reprWith_eq (mirrors.showListTo_eq _)

/-- Values that are the same up to numbers are displayed alike. -/
theorem display_eq {value value' : Value} (comparable : mirror.sized = true ∨ m.Grounded value)
    (same : value.Mirrors mirror reflection value') : m'.display value' = m.display value := by
  have shown := mirrors.repr_eq comparable same
  cases same with
  | str => rfl
  | _ => exact shown

/-- Values that mirror each other compare in the same way. -/
theorem equal_eq {left left' right right' : Value} (same : left.Mirrors mirror reflection left')
    (same' : right.Mirrors mirror reflection right') :
    m'.equal left' right' = m.equal left right := by
  refine same.equalWith_eq mirrors.oneToOne (fun a b a' b' known known' => ?_) same'
  let depth := max (m.lists.size * m.lists.size) (m'.lists.size * m'.lists.size)
  have ground : equalListsTo m depth a a' = equalListsTo m (m.lists.size * m.lists.size) a a' := by
    have closed {outer inner : Nat} : (∃ b, reflection.pairs .list outer b) ->
        m.Nests outer inner -> ∃ b, reflection.pairs .list inner b := fun ⟨_, pair⟩ nests =>
      (mirrors.nests pair nests).imp fun _ found => found.1
    exact equalListsTo_ground closed (fun ⟨_, pair⟩ => (mirrors.bounded pair).1) ⟨b, known⟩
      ⟨b', known'⟩ (Nat.le_max_left _ _)
  have ground' : equalListsTo m' depth b b' =
      equalListsTo m' (m'.lists.size * m'.lists.size) b b' := by
    have closed {outer inner : Nat} : (∃ a, reflection.pairs .list a outer) ->
        m'.Nests outer inner -> ∃ a, reflection.pairs .list a inner := fun ⟨_, pair⟩ nests =>
      (mirrors.nests' pair nests).imp fun _ found => found.1
    exact equalListsTo_ground closed (fun ⟨_, pair⟩ => (mirrors.bounded pair).2) ⟨a, known⟩
      ⟨a', known'⟩ (Nat.le_max_right _ _)
  rw [← ground, ← ground']
  exact mirrors.equalListsTo_eq _ a b a' b' known known'

end Machine.Mirrors

end Trampoline
