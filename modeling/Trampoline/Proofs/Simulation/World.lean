import Trampoline.Proofs.Evaluation.Order
import Trampoline.Proofs.Simulation.Values

/-!
# Machines of a program and of its rewritten form

A world says which cells of the two machines belong together and which cells of the second hold
continuations. It keeps the extents of the second machine, of which the first has none. A later
world knows more cells and has more extents; those of the earlier one are as they were.

What evaluation does to a machine is done to both machines of a world, and leaves them in a later
one. Only cells for continuations and extents are new on one side.
-/

namespace Trampoline

/-! ## Worlds -/

section World

/-- How the machine of a rewritten program stands to that of its source. -/
structure World where
  /-- The cells that hold the same variable. -/
  cells : Pairing
  /-- The cells of the second machine that hold continuations. -/
  conts : Nat -> Callable -> Prop
  extents : Array Bool
  stack : Array Nat

/-- What stays as it is while the machines run. -/
structure World.Later (earlier later : World) : Prop where
  cells : earlier.cells.Within later.cells
  conts : ∀ ref callable, earlier.conts ref callable -> later.conts ref callable
  size : earlier.extents.size ≤ later.extents.size
  extents : ∀ ref, ref < earlier.extents.size -> later.extents[ref]? = earlier.extents[ref]?
  /-- The extents that were entered since are new. -/
  stack : ∃ entered, later.stack.toList = earlier.stack.toList ++ entered ∧
    ∀ ref ∈ entered, earlier.extents.size ≤ ref

instance : LE World := ⟨World.Later⟩

/-- The machines of a program and of its rewritten form. -/
structure MachineRel (mode : Rewriting) (world : World) (source target : Machine) : Prop where
  globals : GlobalsRel mode world.cells source.globals target.globals
  /-- Cells that belong together have related contents. -/
  cells : ∀ left right, world.cells left right -> left < source.cells.size ∧
    right < target.cells.size ∧ ValueRel mode world.cells (source.cell left) (target.cell right)
  /-- A cell belongs to one other. -/
  paired : ∀ left right left' right', world.cells left right -> world.cells left' right' ->
    (left = left' ↔ right = right')
  conts : ∀ ref callable, world.conts ref callable -> ref < target.cells.size ∧
    target.cell ref = .func callable ∧ ∀ left, ¬ world.cells left ref
  lists : source.lists.size = target.lists.size
  items : ∀ ref, ValuesRel mode world.cells (source.items ref).toList (target.items ref).toList
  closures : target.closures = source.closures
  output : target.output = source.output
  closedOutput : target.closedOutput = source.closedOutput
  /-- No continuation is captured in the source program. -/
  unguarded : source.stack = #[]
  extents : target.extents = world.extents
  stack : target.stack = world.stack
  lost : source.passed = mode.lost
  caught : target.passed = fun _ => false
  /-- Without continuations every cell belongs to the one with its number. -/
  exact : mode.passing = false -> source.cells.size = target.cells.size ∧
    ∀ left right, world.cells left right ↔ left = right ∧ left < source.cells.size

namespace World

variable {earlier later latest world : World}

theorem le_refl (world : World) : world ≤ world :=
  ⟨fun _ _ paired => paired, fun _ _ holds => holds, Nat.le_refl _, fun _ _ => rfl,
    [], by simp, by simp⟩

theorem le_trans (first : earlier ≤ later) (second : later ≤ latest) : earlier ≤ latest := by
  obtain ⟨entered, stack, fresh⟩ := first.stack
  obtain ⟨others, stack', fresh'⟩ := second.stack
  refine ⟨fun _ _ paired => second.cells _ _ (first.cells _ _ paired),
    fun _ _ holds => second.conts _ _ (first.conts _ _ holds), Nat.le_trans first.size second.size,
    fun ref less => ?_, entered ++ others, ?_, fun ref member => ?_⟩
  · rw [second.extents ref (Nat.lt_of_lt_of_le less first.size), first.extents ref less]
  · rw [stack', stack, List.append_assoc]
  · rcases List.mem_append.mp member with old | new
    · exact fresh ref old
    · exact Nat.le_trans first.size (fresh' ref new)

/-- Two cells more that belong together. -/
def pair (world : World) (left right : Nat) : World :=
  { world with cells := fun a b => world.cells a b ∨ (a = left ∧ b = right) }

theorem le_pair (world : World) (left right : Nat) : world ≤ world.pair left right :=
  ⟨fun _ _ => .inl, fun _ _ holds => holds, Nat.le_refl _, fun _ _ => rfl, [], by simp [pair],
    by simp⟩

/-- A cell more that holds a continuation. -/
def hide (world : World) (right : Nat) (callable : Callable) : World :=
  { world with conts := fun ref other => world.conts ref other ∨ (ref = right ∧ other = callable) }

/-- A world with one more continuation is later. -/
theorem le_hide (world : World) (right : Nat) (callable : Callable) :
    world ≤ world.hide right callable :=
  ⟨fun _ _ paired => paired, fun _ _ => .inl, Nat.le_refl _, fun _ _ => rfl, [], by simp [hide],
    by simp⟩

/-- An extent more, for an activation that captures. -/
def capture (world : World) : World :=
  { world with extents := world.extents.push true, stack := world.stack.push world.extents.size }

/-- A world with one more extent is later. -/
theorem le_capture (world : World) : world ≤ world.capture := by
  refine ⟨fun _ _ paired => paired, fun _ _ holds => holds, ?_, fun ref less => ?_,
    [world.extents.size], ?_, by simp⟩
  · simp [capture]
  · simp only [capture, Array.getElem?_push, Nat.ne_of_lt less, if_false]
  · simp [capture]

theorem capture_valid (world : World) :
    world.capture.extents[world.extents.size]? = some true := by
  simp [capture]

/-- The world after a guarded operation that began with `mark` extents on the stack. -/
def leave (world : World) (mark : Nat) (extents : Array Bool) : World :=
  { world with extents := extents, stack := world.stack.shrink mark }

/-- Clearing new extents keeps the old ones. -/
theorem clear_getElem? (refs : List Nat) (extents : Array Bool) (count : Nat)
    (fresh : ∀ ref ∈ refs, count ≤ ref) (ref : Nat) (less : ref < count) :
    (refs.foldl (fun extents ref => extents.setIfInBounds ref false) extents)[ref]? =
      extents[ref]? := by
  induction refs generalizing extents with
  | nil => rfl
  | cons first rest ih =>
    have other : first ≠ ref := by
      have := fresh first List.mem_cons_self
      omega
    rw [List.foldl_cons, ih _ fun ref member => fresh ref (List.mem_cons_of_mem _ member),
      Array.getElem?_setIfInBounds_ne other]

/-- Clearing extents takes none away. -/
theorem clear_size (refs : List Nat) (extents : Array Bool) :
    (refs.foldl (fun extents ref => extents.setIfInBounds ref false) extents).size =
      extents.size := by
  induction refs generalizing extents with
  | nil => rfl
  | cons first rest ih => rw [List.foldl_cons, ih, Array.size_setIfInBounds]

/-- A guarded operation leaves the stack as it was, and clears new extents at most. -/
theorem le_leave (after : earlier ≤ later) (refs : List Nat)
    (fresh : ∀ ref ∈ refs, earlier.extents.size ≤ ref) :
    earlier ≤ later.leave earlier.stack.size
      (refs.foldl (fun extents ref => extents.setIfInBounds ref false) later.extents) := by
  obtain ⟨entered, stack, _⟩ := after.stack
  refine ⟨after.cells, after.conts, ?_, fun ref less => ?_, [], ?_, by simp⟩
  · simpa only [leave, clear_size] using after.size
  · rw [← after.extents ref less]
    exact clear_getElem? refs _ _ fresh ref less
  · simp [leave, stack]

end World

namespace MachineRel

variable {mode : Rewriting} {world later : World} {source target : Machine}

variable {α : Type}

/-- The machine of the source program has nothing to invalidate. -/
theorem guardedState_source (related : MachineRel mode world source target)
    (result : Except EvalError α) : Exec.guardedState 0 (result, source) = source := by
  have empty := related.unguarded
  cases source
  simp only at empty
  subst empty
  cases result with
  | ok value => rfl
  | error error => cases error <;> rfl

/-- A guarded operation of the rewritten program, begun in a world, ends in a later one with the
same cells. -/
theorem leave (after : world ≤ later) (related : MachineRel mode later source target)
    (result : Except EvalError α) :
    ∃ latest, world ≤ latest ∧ latest.cells = later.cells ∧ MachineRel mode latest source
      (Exec.guardedState world.stack.size (result, target)) := by
  obtain ⟨entered, stack, fresh⟩ := after.stack
  have dropped : target.stack.toList.drop world.stack.size = entered := by
    simp [related.stack, stack]
  have kept : ∃ latest, world ≤ latest ∧ latest.cells = later.cells ∧
      MachineRel mode latest source (target.unwindTo world.stack.size) :=
    ⟨_, World.le_leave after [] (by simp), rfl, { related with
      stack := by simp only [Machine.unwindTo, World.leave, related.stack] }⟩
  have cleared : ∃ latest, world ≤ latest ∧ latest.cells = later.cells ∧ MachineRel mode latest
      source ((target.invalidateFrom world.stack.size).unwindTo world.stack.size) :=
    ⟨_, World.le_leave after entered fresh, rfl, { related with
      extents := by
        simp only [Machine.invalidateFrom, Machine.unwindTo, World.leave, related.extents, dropped]
      stack := by
        simp only [Machine.invalidateFrom, Machine.unwindTo, World.leave, related.stack] }⟩
  cases result with
  | ok value => exact kept
  | error error =>
    simp only [Exec.guardedState]
    split
    · exact kept
    · exact cleared

end MachineRel

end World

/-! ## Changes of two machines at once -/

section Steps

section Arrays

variable {α : Type}

theorem getD_push_size (array : Array α) (item dflt : α) :
    (array.push item).getD array.size dflt = item := by
  simp

variable {array : Array α} {ref : Nat}

theorem getD_push_lt (less : ref < array.size) (item dflt : α) :
    (array.push item).getD ref dflt = array.getD ref dflt := by
  simp [Array.getElem?_push, Nat.ne_of_lt less]

theorem getD_set_self (less : ref < array.size) (item dflt : α) :
    (array.setIfInBounds ref item).getD ref dflt = item := by
  simp [less]

theorem getD_set_ne {other : Nat} (differs : other ≠ ref) (item dflt : α) :
    (array.setIfInBounds other item).getD ref dflt = array.getD ref dflt := by
  simp [Array.getElem?_setIfInBounds_ne differs]

theorem getD_of_le (beyond : array.size ≤ ref) (dflt : α) : array.getD ref dflt = dflt := by
  simp [beyond]

end Arrays

namespace MachineRel

variable {mode : Rewriting} {world : World} {source target : Machine} {value value' : Value}

/-- A variable more. -/
theorem pairCell (related : MachineRel mode world source target)
    (same : ValueRel mode world.cells value value') :
    MachineRel mode (world.pair source.cells.size target.cells.size)
      { source with cells := source.cells.push value }
      { target with cells := target.cells.push value' } := by
  have grown : world.cells.Within (world.pair source.cells.size target.cells.size).cells :=
    (world.le_pair _ _).cells
  exact { related with
    globals := related.globals.mono grown
    cells := by
      rintro left right (old | ⟨rfl, rfl⟩)
      · obtain ⟨less, less', holds⟩ := related.cells left right old
        refine ⟨?_, ?_, ?_⟩
        · simpa using Nat.lt_succ_of_lt less
        · simpa using Nat.lt_succ_of_lt less'
        · simp only [Machine.cell, getD_push_lt less, getD_push_lt less']
          exact holds.mono grown
      · refine ⟨by simp, by simp, ?_⟩
        simp only [Machine.cell, getD_push_size]
        exact same.mono grown
    paired := by
      rintro left right left' right' (old | ⟨rfl, rfl⟩) (old' | ⟨rfl, rfl⟩)
      · exact related.paired _ _ _ _ old old'
      · have := related.cells _ _ old
        constructor <;> intro <;> omega
      · have := related.cells _ _ old'
        constructor <;> intro <;> omega
      · simp
    conts := by
      intro ref callable holds
      obtain ⟨less, content, free⟩ := related.conts ref callable holds
      refine ⟨by simpa using Nat.lt_succ_of_lt less, ?_, ?_⟩
      · simpa only [Machine.cell, getD_push_lt less] using content
      · rintro left (old | ⟨_, equal⟩)
        · exact free left old
        · omega
    items := fun ref => (related.items ref).mono grown
    exact := by
      intro kept
      obtain ⟨sizes, exact⟩ := related.exact kept
      refine ⟨by simp [sizes], fun left right => ?_⟩
      simp only [World.pair, exact, Array.size_push]
      omega }

/-- A continuation more. -/
theorem hideCell (related : MachineRel mode world source target) (passing : mode.passing = true)
    (callable : Callable) :
    MachineRel mode (world.hide target.cells.size callable) source
      { target with cells := target.cells.push (.func callable) } :=
  { related with
    cells := by
      intro left right paired
      obtain ⟨less, less', holds⟩ := related.cells left right paired
      refine ⟨less, by simpa using Nat.lt_succ_of_lt less', ?_⟩
      simp only [Machine.cell, getD_push_lt less']
      exact holds
    conts := by
      rintro ref other (old | ⟨rfl, rfl⟩)
      · obtain ⟨less, content, free⟩ := related.conts ref other old
        refine ⟨by simpa using Nat.lt_succ_of_lt less, ?_, free⟩
        simpa only [Machine.cell, getD_push_lt less] using content
      · refine ⟨by simp, by simp only [Machine.cell, getD_push_size], fun left paired => ?_⟩
        have := related.cells _ _ paired
        omega
    exact := by simp [passing] }

/-- Another content for a variable. -/
theorem setCell (related : MachineRel mode world source target) {left right : Nat}
    (paired : world.cells left right) (same : ValueRel mode world.cells value value') :
    MachineRel mode world { source with cells := source.cells.setIfInBounds left value }
      { target with cells := target.cells.setIfInBounds right value' } :=
  { related with
    cells := by
      intro left' right' paired'
      obtain ⟨less, less', holds⟩ := related.cells left' right' paired'
      refine ⟨by simpa using less, by simpa using less', ?_⟩
      by_cases equal : left = left'
      · have equal' := (related.paired _ _ _ _ paired paired').mp equal
        subst equal equal'
        simpa only [Machine.cell, getD_set_self less, getD_set_self less'] using same
      · have differs : right ≠ right' := fun equal' =>
          equal ((related.paired _ _ _ _ paired paired').mpr equal')
        simpa only [Machine.cell, getD_set_ne equal, getD_set_ne differs] using holds
    conts := by
      intro ref callable holds
      obtain ⟨less, content, free⟩ := related.conts ref callable holds
      have differs : right ≠ ref := by
        rintro rfl
        exact free _ paired
      refine ⟨by simpa using less, ?_, free⟩
      simpa only [Machine.cell, getD_set_ne differs] using content
    exact := by
      intro kept
      obtain ⟨sizes, exact⟩ := related.exact kept
      exact ⟨by simp [sizes], by simpa using exact⟩ }

/-- A global bound or rebound. -/
theorem define (related : MachineRel mode world source target) (name : String)
    (same : ValueRel mode world.cells value value') :
    MachineRel mode world (source.define name value) (target.define name value') :=
  { related with globals := related.globals.set name same }

variable {items items' : List Value}

/-- A list more. -/
theorem newList (related : MachineRel mode world source target)
    (same : ValuesRel mode world.cells items items') :
    MachineRel mode world { source with lists := source.lists.push items.toArray }
      { target with lists := target.lists.push items'.toArray } :=
  { related with
    lists := by simp [related.lists]
    items := by
      intro ref
      have old := related.items ref
      simp only [Machine.items] at old ⊢
      rcases Nat.lt_trichotomy ref source.lists.size with less | rfl | more
      · rw [getD_push_lt less, getD_push_lt (related.lists ▸ less)]
        exact old
      · rw [getD_push_size, related.lists, getD_push_size]
        exact same
      · have beyond : (source.lists.push items.toArray).size ≤ ref := by
          simpa using Nat.succ_le_of_lt more
        have beyond' : (target.lists.push items'.toArray).size ≤ ref := by
          simpa [← related.lists] using Nat.succ_le_of_lt more
        rw [getD_of_le beyond, getD_of_le beyond']
        exact .nil }

/-- Other items for a list. -/
theorem setItems (related : MachineRel mode world source target) (ref : Nat)
    (same : ValuesRel mode world.cells items items') : MachineRel mode world
      { source with lists := source.lists.setIfInBounds ref items.toArray }
      { target with lists := target.lists.setIfInBounds ref items'.toArray } :=
  { related with
    lists := by simp [related.lists]
    items := by
      intro other
      have old := related.items other
      simp only [Machine.items] at old ⊢
      by_cases equal : ref = other
      · subst equal
        by_cases less : ref < source.lists.size
        · rw [getD_set_self less, getD_set_self (related.lists ▸ less)]
          exact same
        · rw [getD_of_le (by simpa using less), getD_of_le (by simpa [← related.lists] using less)]
          exact .nil
      · rw [getD_set_ne equal, getD_set_ne equal]
        exact old }

/-- An item more in a list. -/
theorem pushItem (related : MachineRel mode world source target) (ref : Nat)
    (same : ValueRel mode world.cells value value') :
    MachineRel mode world
      { source with lists := source.lists.modify ref fun items => items.push value }
      { target with lists := target.lists.modify ref fun items => items.push value' } :=
  { related with
    lists := by simp [related.lists]
    items := by
      intro other
      have old := related.items other
      simp only [Machine.items, Array.getD_eq_getD_getElem?, Array.getElem?_modify] at old ⊢
      by_cases equal : ref = other
      · subst equal
        by_cases less : ref < source.lists.size
        · have less' : ref < target.lists.size := related.lists ▸ less
          simp only [less, less', getElem?_pos, Option.getD_some, if_true, Option.map_some,
            Array.toList_push] at old ⊢
          exact old.append (.cons same .nil)
        · have less' : ¬ ref < target.lists.size := related.lists ▸ less
          simp only [less, less', getElem?_neg, not_false_eq_true, if_true, Option.map_none,
            Option.getD_none]
          exact .nil
      · simpa only [if_neg equal] using old }

/-- A closure more. -/
theorem newClosure (related : MachineRel mode world source target) :
    MachineRel mode world { source with closures := source.closures + 1 }
      { target with closures := target.closures + 1 } :=
  { related with closures := by simp [related.closures] }

/-- More output. -/
theorem write (related : MachineRel mode world source target) (text : String) :
    MachineRel mode world { source with output := source.output ++ text }
      { target with output := target.output ++ text } :=
  { related with output := by simp [related.output] }

/-- An extent more, for an activation of the rewritten program that captures. -/
theorem capture (related : MachineRel mode world source target) :
    MachineRel mode world.capture source
      { target with
        extents := target.extents.push true
        stack := target.stack.push target.extents.size } :=
  { related with
    extents := by simp [World.capture, related.extents]
    stack := by simp [World.capture, related.extents, related.stack] }

end MachineRel

end Steps

end Trampoline
